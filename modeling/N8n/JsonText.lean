import Mathlib.Data.List.Forall2
import Mathlib.Order.Fin.Basic
import Mathlib.Tactic.Common

/-! The text that `JSON.stringify` gives a JSON value, in UTF-16 code units. Different
values have different texts: strings are sequences of blocks that tell where they end, and
every value ends before a comma or a closing bracket. -/

namespace N8n.JsonText

open List

abbrev CodeUnit := Fin 65536

instance units : @NeZero Nat Zero.ofOfNat0 65536 := ⟨Nat.succ_ne_zero 65535⟩

abbrev JsString := List CodeUnit

/-! ## Strings -/

def quotationMark : CodeUnit := 34

def backslash : CodeUnit := 92

def hexDigit (n : ℕ) : CodeUnit := Fin.ofNat 65536 (if n < 10 then 48 + n else 87 + n)

/-- `\u` and four hexadecimal digits. -/
def unicodeEscape (u : CodeUnit) : JsString :=
  [backslash, 117, hexDigit (u / 4096), hexDigit (u / 256 % 16), hexDigit (u / 16 % 16), hexDigit (u % 16)]

def shortEscapes : List (CodeUnit × CodeUnit) :=
  [(8, 98), (9, 116), (10, 110), (12, 102), (13, 114), (quotationMark, quotationMark), (backslash, backslash)]

def shortEscape (u : CodeUnit) : Option CodeUnit :=
  (shortEscapes.find? fun escape => escape.1 = u).map Prod.snd

def isLeadingSurrogate (u : CodeUnit) : Bool := 0xD800 ≤ u.val && u.val ≤ 0xDBFF

def isTrailingSurrogate (u : CodeUnit) : Bool := 0xDC00 ≤ u.val && u.val ≤ 0xDFFF

def quoteUnit (u : CodeUnit) : JsString :=
  match shortEscape u with
  | some short => [backslash, short]
  | none =>
    if u.val < 32 || isLeadingSurrogate u || isTrailingSurrogate u then unicodeEscape u else [u]

def quoteUnits : JsString → JsString
  | [] => []
  | [u] => quoteUnit u
  | u :: v :: rest =>
    if isLeadingSurrogate u && isTrailingSurrogate v then u :: v :: quoteUnits rest
    else quoteUnit u ++ quoteUnits (v :: rest)

def quote (s : JsString) : JsString := quotationMark :: quoteUnits s ++ [quotationMark]

inductive Block (u : CodeUnit) : JsString → Prop
  | plain : u ≠ quotationMark → u ≠ backslash → Block u [u]
  | short (c : CodeUnit) : shortEscape u = some c → Block u [backslash, c]
  | unicode : Block u (unicodeEscape u)
variable {u : CodeUnit} {v c : CodeUnit}

theorem shortEscape_surrogate (surrogate : (isLeadingSurrogate u || isTrailingSurrogate u) = true) :
    u ≠ quotationMark ∧ u ≠ backslash := by
  constructor <;> rintro rfl <;> revert surrogate <;> decide

theorem quoteUnit_block (u : CodeUnit) : Block u (quoteUnit u) := by
  unfold quoteUnit
  split
  · rename_i c short
    exact .short c short
  · rename_i long
    split
    · exact .unicode
    · refine .plain ?_ ?_ <;> rintro rfl <;> revert long <;> decide

theorem quoteUnits_blocks (s : JsString) : ∃ blocks, Forall₂ Block s blocks ∧ quoteUnits s = blocks.flatten := by
  induction s using quoteUnits.induct with
  | case1 => exact ⟨[], .nil, rfl⟩
  | case2 u => exact ⟨[quoteUnit u], .cons (quoteUnit_block u) .nil, by simp [quoteUnits]⟩
  | case3 u v rest pair ih =>
    obtain ⟨blocks, each, text⟩ := ih
    rw [Bool.and_eq_true] at pair
    have leading := shortEscape_surrogate (u := u) (by simp [pair.1])
    have trailing := shortEscape_surrogate (u := v) (by simp [pair.2])
    refine ⟨[u] :: [v] :: blocks, .cons (.plain leading.1 leading.2) (.cons (.plain trailing.1 trailing.2) each), ?_⟩
    simp [quoteUnits, pair, text]
  | case4 u v rest single ih =>
    obtain ⟨blocks, each, text⟩ := ih
    refine ⟨quoteUnit u :: blocks, .cons (quoteUnit_block u) each, ?_⟩
    rw [quoteUnits, if_neg single, text]
    rfl

theorem hexDigit_injective {m n : ℕ} (small : m < 16) (small' : n < 16) (same : hexDigit m = hexDigit n) : m = n := by
  have values := congrArg Fin.val same
  simp only [hexDigit, Fin.val_ofNat] at values
  split_ifs at values <;> omega

theorem unicodeEscape_injective (same : unicodeEscape u = unicodeEscape v) : u = v := by
  simp only [unicodeEscape, List.cons.injEq, true_and, and_true] at same
  obtain ⟨first, second, third, fourth⟩ := same
  have first := hexDigit_injective (by omega) (by omega) first
  have second := hexDigit_injective (by omega) (by omega) second
  have third := hexDigit_injective (by omega) (by omega) third
  have fourth := hexDigit_injective (by omega) (by omega) fourth
  apply Fin.ext
  omega

theorem shortEscape_mem (short : shortEscape u = some c) : (u, c) ∈ shortEscapes := by
  obtain ⟨escape, found, rfl⟩ := Option.map_eq_some_iff.mp short
  have unit : escape.1 = u := by simpa using find?_some found
  rw [← unit]
  exact mem_of_find?_eq_some found

theorem shortEscape_injective (left : shortEscape u = some c) (right : shortEscape v = some c) : u = v := by
  have table : (shortEscapes.all fun p => shortEscapes.all fun q =>
      decide (p.2 = q.2 → p.1 = q.1)) = true := by decide
  have row := List.all_eq_true.mp table _ (shortEscape_mem left)
  exact of_decide_eq_true (List.all_eq_true.mp row _ (shortEscape_mem right)) rfl

theorem shortEscape_ne_unicode (short : shortEscape u = some c) : c ≠ 117 := by
  have table : (shortEscapes.all fun p => p.2 ≠ 117) = true := by decide
  exact of_decide_eq_true (List.all_eq_true.mp table _ (shortEscape_mem short))

theorem Block.unique {b c x y : JsString} (left : Block u b) (right : Block v c) (same : b ++ x = c ++ y) :
    u = v ∧ x = y := by
  cases left with
  | plain unquoted unescaped =>
    cases right with
    | plain => simpa using same
    | short c _ => exact absurd (List.cons.inj same).1 unescaped
    | unicode => exact absurd (List.cons.inj same).1 unescaped
  | short c left =>
    cases right with
    | plain unquoted unescaped => exact absurd (List.cons.inj same).1.symm unescaped
    | short d right =>
      simp only [cons_append, nil_append, List.cons.injEq, true_and] at same
      exact ⟨shortEscape_injective left (same.1 ▸ right), same.2⟩
    | unicode =>
      simp only [unicodeEscape, cons_append, List.cons.injEq, true_and] at same
      exact absurd same.1 (shortEscape_ne_unicode left)
  | unicode =>
    cases right with
    | plain unquoted unescaped => exact absurd (List.cons.inj same).1.symm unescaped
    | short d right =>
      simp only [unicodeEscape, cons_append, List.cons.injEq, true_and] at same
      exact absurd same.1.symm (shortEscape_ne_unicode right)
    | unicode =>
      have lengths : (unicodeEscape u).length = (unicodeEscape v).length := rfl
      obtain ⟨escapes, rest⟩ := append_inj same lengths
      exact ⟨unicodeEscape_injective escapes, rest⟩

theorem Block.head {u : CodeUnit} {b : JsString} (block : Block u b) (x : JsString) :
    ∃ first rest, b ++ x = first :: rest ∧ first ≠ quotationMark := by
  cases block with
  | plain unquoted _ => exact ⟨u, x, rfl, unquoted⟩
  | short c _ => exact ⟨backslash, c :: x, rfl, by decide⟩
  | unicode => exact ⟨backslash, _, rfl, by decide⟩

theorem blocks_unique {s t : JsString} {bs cs : List JsString} (left : Forall₂ Block s bs)
    (right : Forall₂ Block t cs) {x y : JsString}
    (same : bs.flatten ++ quotationMark :: x = cs.flatten ++ quotationMark :: y) : s = t ∧ x = y := by
  induction left generalizing t cs with
  | nil =>
    cases right with
    | nil => exact ⟨rfl, (List.cons.inj same).2⟩
    | cons block _ =>
      rw [flatten_cons, append_assoc] at same
      obtain ⟨first, rest, start, unquoted⟩ := block.head _
      rw [start] at same
      exact absurd (List.cons.inj same).1.symm unquoted
  | cons block _ ih =>
    cases right with
    | nil =>
      rw [flatten_cons, append_assoc] at same
      obtain ⟨first, rest, start, unquoted⟩ := block.head _
      rw [start] at same
      exact absurd (List.cons.inj same).1 unquoted
    | cons block' right =>
      rw [flatten_cons, flatten_cons, append_assoc, append_assoc] at same
      obtain ⟨rfl, rest⟩ := block.unique block' same
      obtain ⟨rfl, rfl⟩ := ih right rest
      exact ⟨rfl, rfl⟩

theorem quote_append_inj {s t x y : JsString} (same : quote s ++ x = quote t ++ y) : s = t ∧ x = y := by
  obtain ⟨bs, left, text⟩ := quoteUnits_blocks s
  obtain ⟨cs, right, text'⟩ := quoteUnits_blocks t
  simp only [quote, cons_append, append_assoc, nil_append, List.cons.injEq,
    true_and, text, text'] at same
  exact blocks_unique left right same

/-! ## Values -/

/-- Digits, signs, the point and the letter of an exponent. -/
def numberUnits : List CodeUnit := [43, 45, 46, 48, 49, 50, 51, 52, 53, 54, 55, 56, 57, 101]

/-- A finite number by the text of `Number::toString`. -/
structure NumberText where
  text : JsString
  nonempty : text ≠ []
  units : ∀ u ∈ text, u ∈ numberUnits
  deriving DecidableEq

/-- A JSON value; the members of an object stand in the order in which they are written. -/
inductive Json
  | null
  | boolean (value : Bool)
  | number (value : NumberText)
  | string (value : JsString)
  | array (items : List Json)
  | object (members : List (JsString × Json))

@[induction_eliminator]
theorem Json.induct {motive : Json → Prop} (null : motive .null)
    (boolean : ∀ value, motive (.boolean value)) (number : ∀ value, motive (.number value))
    (string : ∀ value, motive (.string value)) (array : ∀ items, (∀ item ∈ items, motive item) → motive (.array items))
    (object : ∀ members, (∀ entry ∈ members, motive entry.2) → motive (.object members)) (value : Json) :
    motive value :=
  @Json.rec motive (fun items => ∀ item ∈ items, motive item)
    (fun members => ∀ entry ∈ members, motive entry.2) (fun entry => motive entry.2)
    null boolean number string array object (by simp)
    (fun _ _ first rest => forall_mem_cons.mpr ⟨first, rest⟩) (by simp)
    (fun _ _ first rest => forall_mem_cons.mpr ⟨first, rest⟩) (fun _ _ value => value) value

def comma : CodeUnit := 44

def colon : CodeUnit := 58

def closingBracket : CodeUnit := 93

def closingBrace : CodeUnit := 125

def separated : List JsString → JsString
  | [] => []
  | text :: texts => text ++ texts.flatMap fun text => comma :: text

mutual

def Json.text : Json → JsString
  | .null => [110, 117, 108, 108]
  | .boolean true => [116, 114, 117, 101]
  | .boolean false => [102, 97, 108, 115, 101]
  | .number value => value.text
  | .string value => quote value
  | .array items => 91 :: separated (itemTexts items) ++ [closingBracket]
  | .object members => 123 :: separated (memberTexts members) ++ [closingBrace]

def itemTexts : List Json → List JsString
  | [] => []
  | item :: items => item.text :: itemTexts items

def memberTexts : List (JsString × Json) → List JsString
  | [] => []
  | (key, value) :: members => (quote key ++ colon :: value.text) :: memberTexts members

end

def memberText (entry : JsString × Json) : JsString := quote entry.1 ++ colon :: entry.2.text

theorem itemTexts_eq (items : List Json) : itemTexts items = items.map Json.text := by
  induction items with
  | nil => rfl
  | cons item items ih => rw [itemTexts, ih, map_cons]

theorem memberTexts_eq (members : List (JsString × Json)) : memberTexts members = members.map memberText := by
  induction members with
  | nil => rfl
  | cons entry members ih => rw [memberTexts, ih, map_cons]; rfl

/-! ## Where a text ends -/

def endsValue (u : CodeUnit) : Bool := u = comma || u = closingBracket || u = closingBrace

def Delimited (text : JsString) : Prop := ∀ u ∈ text.head?, endsValue u = true

theorem delimited_cons (ends : endsValue u = true) (text : JsString) : Delimited (u :: text) := by
  intro v first
  rw [← Option.some.inj first]
  exact ends

/-- No text of another value or rest agrees with this one. -/
def SelfDelimiting {α : Type} (code : α → JsString) (x : α) : Prop :=
  ∀ y r r', Delimited r → Delimited r' → code x ++ r = code y ++ r' → x = y ∧ r = r'

def Opens {α : Type} (code : α → JsString) : Prop :=
  ∀ x, ∃ u rest, code x = u :: rest ∧ endsValue u = false

section Sequences

variable {α : Type} {code : α → JsString} {close : CodeUnit}

theorem delimited_tail (code : α → JsString) (ends : endsValue close = true) (xs : List α) (rest : JsString) :
    Delimited ((xs.map code).flatMap (fun text => comma :: text) ++ close :: rest) := by
  cases xs with
  | nil => exact delimited_cons ends rest
  | cons x xs => exact delimited_cons (by decide) _

theorem tail_inj (ends : endsValue close = true) (other : close ≠ comma)
    {xs ys : List α} (each : ∀ x ∈ xs, SelfDelimiting code x) {r r' : JsString}
    (same : (xs.map code).flatMap (fun text => comma :: text) ++ close :: r =
      (ys.map code).flatMap (fun text => comma :: text) ++ close :: r') : xs = ys ∧ r = r' := by
  induction xs generalizing ys with
  | nil =>
    cases ys with
    | nil => exact ⟨rfl, (List.cons.inj same).2⟩
    | cons y ys => exact absurd (List.cons.inj same).1 other
  | cons x xs ih =>
    rw [forall_mem_cons] at each
    cases ys with
    | nil => exact absurd (List.cons.inj same).1.symm other
    | cons y ys =>
      simp only [map_cons, flatMap_cons, cons_append, append_assoc,
        List.cons.injEq, true_and] at same
      obtain ⟨rfl, rest⟩ :=
        each.1 _ _ _ (delimited_tail code ends xs r) (delimited_tail code ends ys r') same
      obtain ⟨rfl, rfl⟩ := ih each.2 rest
      exact ⟨rfl, rfl⟩

theorem separated_inj (opens : Opens code) (ends : endsValue close = true)
    (other : close ≠ comma) {xs ys : List α} (each : ∀ x ∈ xs, SelfDelimiting code x) {r r' : JsString}
    (same : separated (xs.map code) ++ close :: r = separated (ys.map code) ++ close :: r') : xs = ys ∧ r = r' := by
  have started (zs : List α) (z : α) (x y : JsString)
      (same : close :: x = separated ((z :: zs).map code) ++ y) : False := by
    obtain ⟨u, rest, start, inside⟩ := opens z
    rw [map_cons, separated, start, append_assoc] at same
    rw [← (List.cons.inj same).1, ends] at inside
    cases inside
  cases xs with
  | nil =>
    cases ys with
    | nil => exact ⟨rfl, (List.cons.inj same).2⟩
    | cons y ys => exact (started ys y _ _ same).elim
  | cons x xs =>
    rw [forall_mem_cons] at each
    cases ys with
    | nil => exact (started xs x _ _ same.symm).elim
    | cons y ys =>
      simp only [map_cons, separated, append_assoc] at same
      obtain ⟨rfl, rest⟩ :=
        each.1 _ _ _ (delimited_tail code ends xs r) (delimited_tail code ends ys r') same
      obtain ⟨rfl, rfl⟩ := tail_inj ends other each.2 rest
      exact ⟨rfl, rfl⟩

end Sequences

/-! ## Different values have different texts -/

/-- The kinds of values, told apart by the first unit of their texts. -/
inductive Kind
  | null
  | boolean (value : Bool)
  | number
  | string
  | array
  | object
  deriving DecidableEq

def Json.kind : Json → Kind
  | .null => .null
  | .boolean value => .boolean value
  | .number _ => .number
  | .string _ => .string
  | .array _ => .array
  | .object _ => .object

def kindOfUnit (u : CodeUnit) : Option Kind :=
  if u = 110 then some .null
  else if u = 116 then some (.boolean true)
  else if u = 102 then some (.boolean false)
  else if u = quotationMark then some .string
  else if u = 91 then some .array
  else if u = 123 then some .object
  else if u ∈ numberUnits then some .number
  else none

theorem Json.text_head (value : Json) : ∃ u rest, value.text = u :: rest ∧ kindOfUnit u = some value.kind := by
  cases value with
  | null => exact ⟨110, _, rfl, rfl⟩
  | boolean value => cases value <;> exact ⟨_, _, rfl, rfl⟩
  | string value => exact ⟨quotationMark, _, rfl, rfl⟩
  | array items => exact ⟨91, _, by rw [Json.text]; rfl, rfl⟩
  | object members => exact ⟨123, _, by rw [Json.text]; rfl, rfl⟩
  | number value =>
    obtain ⟨text, nonempty, units⟩ := value
    obtain ⟨u, rest, rfl⟩ := exists_cons_of_ne_nil nonempty
    have table : numberUnits.all fun u => kindOfUnit u = some .number := by decide
    have first := List.all_eq_true.mp table u (units u mem_cons_self)
    exact ⟨u, rest, rfl, of_decide_eq_true first⟩

theorem Json.opens : Opens Json.text := by
  intro value
  obtain ⟨u, rest, start, kind⟩ := value.text_head
  refine ⟨u, rest, start, ?_⟩
  rw [endsValue, Bool.or_eq_false_iff, Bool.or_eq_false_iff]
  refine ⟨⟨?_, ?_⟩, ?_⟩ <;> rw [decide_eq_false_iff_not] <;> rintro rfl <;> cases kind

theorem memberText_opens : Opens memberText := fun _ => ⟨quotationMark, _, rfl, by decide⟩

theorem Json.kind_eq {v w : Json} {r r' : JsString} (same : v.text ++ r = w.text ++ r') : v.kind = w.kind := by
  obtain ⟨u, rest, start, kind⟩ := v.text_head
  obtain ⟨u', rest', start', kind'⟩ := w.text_head
  rw [start, start'] at same
  rw [(List.cons.inj same).1] at kind
  exact Option.some.inj (kind.symm.trans kind')

theorem number_inj {s t r r' : JsString} (left : ∀ u ∈ s, u ∈ numberUnits)
    (right : ∀ u ∈ t, u ∈ numberUnits) (end_left : Delimited r) (end_right : Delimited r')
    (same : s ++ r = t ++ r') : s = t ∧ r = r' := by
  have outside : numberUnits.all fun u => !endsValue u := by decide
  have stop (r : JsString) (ends : Delimited r) : r.takeWhile (fun u => u ∈ numberUnits) = [] := by
    cases r with
    | nil => rfl
    | cons u rest =>
      rw [takeWhile_cons_of_neg]
      intro inside
      have ends := ends u rfl
      have inside := List.all_eq_true.mp outside u (of_decide_eq_true inside)
      rw [ends] at inside
      cases inside
  have taken (s r : JsString) (units : ∀ u ∈ s, u ∈ numberUnits) (ends : Delimited r) :
      (s ++ r).takeWhile (fun u => u ∈ numberUnits) = s := by
    rw [takeWhile_append_of_pos fun u member => decide_eq_true (units u member), stop r ends, append_nil]
  have texts : s = t := by rw [← taken s r left end_left, same, taken t r' right end_right]
  subst texts
  exact ⟨rfl, append_cancel_left same⟩

theorem Json.selfDelimiting (value : Json) : SelfDelimiting Json.text value := by
  induction value with
  | null =>
    intro w r r' _ _ same
    have kind := Json.kind_eq same
    cases w <;> cases kind
    exact ⟨rfl, append_cancel_left same⟩
  | boolean b =>
    intro w r r' _ _ same
    have kind := Json.kind_eq same
    cases w <;> cases kind
    exact ⟨rfl, append_cancel_left same⟩
  | number n =>
    intro w r r' ends ends' same
    have kind := Json.kind_eq same
    cases w <;> cases kind
    rename_i m
    obtain ⟨texts, rests⟩ := number_inj n.units m.units ends ends' same
    refine ⟨?_, rests⟩
    obtain ⟨text, nonempty, units⟩ := n
    obtain ⟨text', nonempty', units'⟩ := m
    cases texts
    rfl
  | string s =>
    intro w r r' _ _ same
    have kind := Json.kind_eq same
    cases w <;> cases kind
    obtain ⟨rfl, rests⟩ := quote_append_inj same
    exact ⟨rfl, rests⟩
  | array items each =>
    intro w r r' _ _ same
    have kind := Json.kind_eq same
    cases w <;> cases kind
    rename_i items'
    simp only [Json.text, itemTexts_eq, cons_append, append_assoc, nil_append,
      List.cons.injEq, true_and] at same
    obtain ⟨rfl, rests⟩ := separated_inj Json.opens (by decide) (by decide) each same
    exact ⟨rfl, rests⟩
  | object members each =>
    intro w r r' _ _ same
    have kind := Json.kind_eq same
    cases w <;> cases kind
    rename_i members'
    simp only [Json.text, memberTexts_eq, cons_append, append_assoc, nil_append,
      List.cons.injEq, true_and] at same
    have each' : ∀ entry ∈ members, SelfDelimiting memberText entry := by
      intro entry member other r r' ends ends' same
      simp only [memberText, append_assoc, cons_append] at same
      obtain ⟨keys, same⟩ := quote_append_inj same
      obtain ⟨values, rests⟩ := each entry member _ _ _ ends ends' (List.cons.inj same).2
      exact ⟨Prod.ext keys values, rests⟩
    obtain ⟨rfl, rests⟩ := separated_inj memberText_opens (by decide) (by decide) each' same
    exact ⟨rfl, rests⟩

theorem Json.text_injective : Function.Injective Json.text := by
  intro v w same
  have ends : Delimited [] := fun u first => by cases first
  have same' : v.text ++ [] = w.text ++ [] := by rw [same]
  exact (v.selfDelimiting w [] [] ends ends same').1

end N8n.JsonText
