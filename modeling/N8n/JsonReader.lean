import Mathlib.Algebra.BigOperators.Group.List.Basic
import Mathlib.Algebra.Order.BigOperators.Group.List
import Mathlib.Data.Rat.Defs
import Mathlib.Tactic.Common
import N8n.OrderedMap

/-! JSON values over characters: the text that `JSON.stringify` writes and a reader of JSON
texts. What is written is read back, and a value weighs no more than the text it is read
from, where a text weighs as much as it has characters that occur in no numeral. -/

namespace N8n.JsonReader

open List Option Nat

variable {ν : Type}

/-- A JSON value; the members of an object stand in the order of its properties. A numeral may be too
large for a finite number. -/
inductive Json (ν : Type)
  | null
  | boolean (value : Bool)
  | number (value : ν)
  | infinity (negative : Bool)
  | string (value : List Char)
  | array (items : List (Json ν))
  | object (members : List (List Char × Json ν))

@[induction_eliminator]
theorem Json.induct {motive : Json ν → Prop} (null : motive .null)
    (boolean : ∀ value, motive (.boolean value)) (number : ∀ value, motive (.number value))
    (infinity : ∀ negative, motive (.infinity negative)) (string : ∀ value, motive (.string value))
    (array : ∀ items, (∀ item ∈ items, motive item) → motive (.array items))
    (object : ∀ members, (∀ entry ∈ members, motive entry.2) → motive (.object members)) (value : Json ν) :
    motive value :=
  @Json.rec ν motive (fun items => ∀ item ∈ items, motive item)
    (fun members => ∀ entry ∈ members, motive entry.2) (fun entry => motive entry.2)
    null boolean number infinity string array object (by simp)
    (fun _ _ first rest => forall_mem_cons.mpr ⟨first, rest⟩) (by simp)
    (fun _ _ first rest => forall_mem_cons.mpr ⟨first, rest⟩) (fun _ _ value => value) value

/-- Digits, signs, the point and the letter of an exponent. -/
def isNumeral (char : Char) : Bool :=
  char.isDigit || char == '+' || char == '-' || char == '.' || char == 'e' || char == 'E'

inductive Numeral (ν : Type)
  | finite (value : ν)
  | infinity (negative : Bool)

def Numeral.value : Numeral ν → Json ν
  | finite value => .number value
  | infinity negative => .infinity negative

/-- The finite numbers, zero without its sign, with the text that `Number::toString` gives them, and what a
JSON number reads as. -/
structure Numerals (ν : Type) where
  toText : ν → List Char
  ofText : List Char → Option (Numeral ν)
  filled : ∀ x, toText x ≠ []
  numeral : ∀ x, ∀ char ∈ toText x, isNumeral char = true
  ofText_toText : ∀ x, ofText (toText x) = some (.finite x)

section Writing

def shortEscapes : List (Char × Char) :=
  [('\x08', 'b'), ('\t', 't'), ('\n', 'n'), ('\x0c', 'f'), ('\r', 'r'), ('"', '"'), ('\\', '\\')]

def writeChar (char : Char) : List Char :=
  match shortEscapes.lookup char with
  | some short => ['\\', short]
  | none =>
    if char.toNat < 32 then
      ['\\', 'u', '0', '0', Nat.digitChar (char.toNat / 16), Nat.digitChar (char.toNat % 16)]
    else [char]

def quote (text : List Char) : List Char := '"' :: text.flatMap writeChar ++ ['"']

def separated : List (List Char) → List Char
  | [] => []
  | text :: texts => text ++ texts.flatMap fun text => ',' :: text

variable (N : Numerals ν)

mutual

def Json.text : Json ν → List Char
  | .null => ['n', 'u', 'l', 'l']
  | .boolean true => ['t', 'r', 'u', 'e']
  | .boolean false => ['f', 'a', 'l', 's', 'e']
  | .number value => N.toText value
  | .infinity _ => ['n', 'u', 'l', 'l']
  | .string value => quote value
  | .array items => '[' :: separated (itemTexts items) ++ [']']
  | .object members => '{' :: separated (memberTexts members) ++ ['}']

def itemTexts : List (Json ν) → List (List Char)
  | [] => []
  | item :: items => item.text :: itemTexts items

def memberTexts : List (List Char × Json ν) → List (List Char)
  | [] => []
  | (key, value) :: members => (quote key ++ ':' :: value.text) :: memberTexts members

end

def memberText (entry : List Char × Json ν) : List Char := quote entry.1 ++ ':' :: entry.2.text N

theorem itemTexts_eq (items : List (Json ν)) : itemTexts N items = items.map (Json.text N) := by
  induction items with
  | nil => rfl
  | cons item items ih => rw [itemTexts, ih, map_cons]

theorem memberTexts_eq (members : List (List Char × Json ν)) : memberTexts N members = members.map (memberText N) := by
  induction members with
  | nil => rfl
  | cons entry members ih => rw [memberTexts, ih, map_cons]; rfl

end Writing

section Reading

def isJsonSpace (char : Char) : Bool :=
  char == ' ' || char == '\t' || char == '\n' || char == '\r'

def skipSpace (text : List Char) : List Char := text.dropWhile isJsonSpace

def hexDigits : List (Char × ℕ) :=
  [('0', 0), ('1', 1), ('2', 2), ('3', 3), ('4', 4), ('5', 5), ('6', 6), ('7', 7), ('8', 8), ('9', 9),
    ('a', 10), ('b', 11), ('c', 12), ('d', 13), ('e', 14), ('f', 15),
    ('A', 10), ('B', 11), ('C', 12), ('D', 13), ('E', 14), ('F', 15)]

def readHex4 : List Char → Option (ℕ × List Char)
  | a :: b :: c :: d :: rest => do
    let a ← hexDigits.lookup a
    let b ← hexDigits.lookup b
    let c ← hexDigits.lookup c
    let d ← hexDigits.lookup d
    return (((a * 16 + b) * 16 + c) * 16 + d, rest)
  | _ => none

def unescapes : List (Char × Char) :=
  [('"', '"'), ('\\', '\\'), ('/', '/'), ('b', '\x08'), ('f', '\x0c'), ('n', '\n'), ('r', '\r'), ('t', '\t')]

/-- What follows a backslash. Two escapes of surrogates are one character; a surrogate alone
is none. -/
def readEscape : List Char → Option (Char × List Char)
  | 'u' :: rest => do
    let (unit, rest) ← readHex4 rest
    if 0xD800 ≤ unit ∧ unit ≤ 0xDBFF then
      match rest with
      | '\\' :: 'u' :: rest => do
        let (low, rest) ← readHex4 rest
        if 0xDC00 ≤ low ∧ low ≤ 0xDFFF then
          return (Char.ofNat (0x10000 + (unit - 0xD800) * 1024 + (low - 0xDC00)), rest)
        else none
      | _ => none
    else if 0xDC00 ≤ unit ∧ unit ≤ 0xDFFF then none
    else return (Char.ofNat unit, rest)
  | short :: rest => (unescapes.lookup short).map fun char => (char, rest)
  | [] => none

def readChar : List Char → Option (Char × List Char)
  | '\\' :: rest => readEscape rest
  | char :: rest => if char = '"' ∨ char.toNat < 32 then none else some (char, rest)
  | [] => none

/-- The string up to its closing quote, and what follows it. -/
def readString : ℕ → List Char → Option (List Char × List Char)
  | 0, _ => none
  | _ + 1, '"' :: rest => some ([], rest)
  | n + 1, text => do
    let (char, rest) ← readChar text
    let (value, rest) ← readString n rest
    return (char :: value, rest)

/-- The members that an object has once these are added in turn. -/
def ownMembers (members : List (List Char × Json ν)) : List (List Char × Json ν) :=
  members.foldl (fun own member => OrderedMap.setEntry member.1 member.2 own) []

variable (N : Numerals ν)

mutual

def readValue : ℕ → List Char → Option (Json ν × List Char)
  | 0, _ => none
  | n + 1, text =>
    match skipSpace text with
    | '"' :: rest => (readString (rest.length + 1) rest).map (Prod.map .string id)
    | '[' :: rest =>
      match skipSpace rest with
      | ']' :: rest => some (.array [], rest)
      | _ => (readItems n rest).map (Prod.map .array id)
    | '{' :: rest =>
      match skipSpace rest with
      | '}' :: rest => some (.object [], rest)
      | _ => (readMembers n rest).map (Prod.map (.object ∘ ownMembers) id)
    | 't' :: 'r' :: 'u' :: 'e' :: rest => some (.boolean true, rest)
    | 'f' :: 'a' :: 'l' :: 's' :: 'e' :: rest => some (.boolean false, rest)
    | 'n' :: 'u' :: 'l' :: 'l' :: rest => some (.null, rest)
    | text =>
      if text.takeWhile isNumeral = [] then none
      else (N.ofText (text.takeWhile isNumeral)).map fun value =>
        (value.value, text.dropWhile isNumeral)

def readItems : ℕ → List Char → Option (List (Json ν) × List Char)
  | 0, _ => none
  | n + 1, text => do
    let (item, rest) ← readValue n text
    match skipSpace rest with
    | ',' :: rest => (readItems n rest).map (Prod.map (item :: ·) id)
    | ']' :: rest => some ([item], rest)
    | _ => none

def readMembers : ℕ → List Char → Option (List (List Char × Json ν) × List Char)
  | 0, _ => none
  | n + 1, text =>
    match skipSpace text with
    | '"' :: rest => do
      let (key, rest) ← readString (rest.length + 1) rest
      match skipSpace rest with
      | ':' :: rest =>
        let (value, rest) ← readValue n rest
        match skipSpace rest with
        | ',' :: rest => (readMembers n rest).map (Prod.map ((key, value) :: ·) id)
        | '}' :: rest => some ([(key, value)], rest)
        | _ => none
      | _ => none
    | _ => none

end

/-- `JSON.parse`. No value takes more calls than it has characters. -/
def parseJson (text : List Char) : Option (Json ν) := do
  let (value, rest) ← readValue N (text.length + 1) text
  if skipSpace rest = [] then return value else none

end Reading

section Strings

variable {char : Char}

theorem writeChar_plain (short : shortEscapes.lookup char = none)
    (printable : 32 ≤ char.toNat) : writeChar char = [char] := by
  rw [writeChar, short]
  simp only
  rw [if_neg (by omega)]

theorem lookup_mem {α β : Type} [BEq α] [LawfulBEq α] {key : α} {value : β} {table : List (α × β)}
    (found : table.lookup key = some value) : (key, value) ∈ table := by
  obtain ⟨before, after, rfl, _⟩ := lookup_eq_some_iff.mp found
  simp

theorem readEscape_short {short : Char} (found : shortEscapes.lookup char = some short)
    (rest : List Char) : readEscape (short :: rest) = some (char, rest) := by
  have table : (shortEscapes.all fun entry =>
      entry.2 != 'u' && unescapes.lookup entry.2 == some entry.1) = true := by decide
  have entry := List.all_eq_true.mp table _ (lookup_mem found)
  rw [Bool.and_eq_true, bne_iff_ne, beq_iff_eq] at entry
  rw [readEscape, entry.2, map_some]
  exact entry.1

theorem lookup_hexDigits {n : ℕ} (small : n < 16) : hexDigits.lookup (Nat.digitChar n) = some n := by
  have table : ((List.range 16).all fun n => hexDigits.lookup (Nat.digitChar n) == some n) =
      true := by
    decide
  exact beq_iff_eq.mp (List.all_eq_true.mp table n (mem_range.mpr small))

theorem readEscape_unicode (control : char.toNat < 32) (rest : List Char) :
    readEscape ('u' :: '0' :: '0' :: Nat.digitChar (char.toNat / 16) ::
      Nat.digitChar (char.toNat % 16) :: rest) = some (char, rest) := by
  have zero : hexDigits.lookup '0' = some 0 := rfl
  have value : ((0 * 16 + 0) * 16 + char.toNat / 16) * 16 + char.toNat % 16 = char.toNat := by omega
  simp only [readEscape, readHex4, zero, lookup_hexDigits (show char.toNat / 16 < 16 by omega),
    lookup_hexDigits (show char.toNat % 16 < 16 by omega), bind_eq_bind, bind_some,
    Option.pure_def, value]
  rw [if_neg (by omega), if_neg (by omega), Char.ofNat_toNat]

theorem readChar_writeChar (char : Char) (rest : List Char) :
    readChar (writeChar char ++ rest) = some (char, rest) := by
  rw [writeChar]
  cases short : shortEscapes.lookup char with
  | some escape => exact readEscape_short short rest
  | none =>
    simp only
    split_ifs with control
    · exact readEscape_unicode control rest
    · have unquoted : char ≠ '"' := by rintro rfl; cases short
      have unescaped : char ≠ '\\' := by rintro rfl; cases short
      rw [List.singleton_append, readChar]
      · rw [if_neg (by simp [unquoted, control])]
      · exact unescaped

theorem writeChar_unquoted (char : Char) (rest after : List Char) : writeChar char ++ rest ≠ '"' :: after := by
  rw [writeChar]
  cases short : shortEscapes.lookup char with
  | some escape => simp
  | none =>
    simp only
    split_ifs
    · simp
    · rintro same
      obtain rfl := (List.cons.inj same).1
      cases short

theorem length_le_written (value : List Char) : value.length ≤ (value.flatMap writeChar).length := by
  induction value with
  | nil => rfl
  | cons char value ih =>
    have first : 0 < (writeChar char).length := by
      rw [writeChar]
      split
      · simp
      · split_ifs <;> simp
    rw [flatMap_cons, length_append, length_cons]
    omega

theorem readString_quoted (value rest : List Char) {n : ℕ} (fuel : value.length < n) :
    readString n (value.flatMap writeChar ++ '"' :: rest) = some (value, rest) := by
  induction value generalizing n with
  | nil =>
    obtain ⟨n, rfl⟩ := exists_eq_add_one_of_ne_zero (by omega : n ≠ 0)
    rfl
  | cons char value ih =>
    obtain ⟨n, rfl⟩ := exists_eq_add_one_of_ne_zero (by omega : n ≠ 0)
    have more := ih (n := n) (by simpa using fuel)
    rw [flatMap_cons, append_assoc, readString.eq_3, readChar_writeChar]
    · simp [more]
    · exact writeChar_unquoted char _

/-- A string is read back with the fuel that the text gives. -/
theorem readString_written (value rest : List Char) : readString ((value.flatMap writeChar ++ '"' :: rest).length + 1)
      (value.flatMap writeChar ++ '"' :: rest) = some (value, rest) := by
  refine readString_quoted value rest ?_
  have written := length_le_written value
  rw [length_append]
  omega

end Strings

section RoundTrip

variable {N : Numerals ν}

variable {char : Char}

theorem skipSpace_cons (solid : isJsonSpace char = false) (rest : List Char) :
    skipSpace (char :: rest) = char :: rest := dropWhile_cons_of_neg (by simp [solid])

theorem separated_cons_cons (text next : List Char) (texts : List (List Char)) :
    separated (text :: next :: texts) = text ++ ',' :: separated (next :: texts) := rfl

/-- What may follow a value: nothing that continues a numeral. -/
def Delimited (rest : List Char) : Prop := ∀ char ∈ rest.head?, isNumeral char = false

theorem delimited_cons (ends : isNumeral char = false) (rest : List Char) : Delimited (char :: rest) := by
  intro first same
  rwa [← Option.some.inj same]

def ReadBack (N : Numerals ν) (value : Json ν) : Prop :=
  ∀ n rest, (value.text N).length ≤ n → Delimited rest → readValue N n (value.text N ++ rest) = some (value, rest)

theorem numeral_solid (numeral : isNumeral char = true) :
    isJsonSpace char = false ∧ char ≠ ']' ∧ char ≠ '"' ∧ char ≠ '[' ∧ char ≠ '{' ∧ char ≠ 't' ∧
      char ≠ 'f' ∧ char ≠ 'n' := by
  have other (mark : Char) (h : isNumeral mark = false) : char ≠ mark := by
    rintro rfl
    rw [numeral] at h
    cases h
  refine ⟨?_, other _ rfl, other _ rfl, other _ rfl, other _ rfl, other _ rfl, other _ rfl, other _ rfl⟩
  simp [isJsonSpace, other ' ' rfl, other '\t' rfl, other '\n' rfl, other '\r' rfl]

/-- The first character of a text is neither white space nor a closing bracket. -/
theorem text_head (value : Json ν) (rest : List Char) :
    ∃ char after, value.text N ++ rest = char :: after ∧ isJsonSpace char = false ∧ char ≠ ']' := by
  cases value with
  | null => exact ⟨_, _, rfl, rfl, by decide⟩
  | boolean value => cases value <;> exact ⟨_, _, rfl, rfl, by decide⟩
  | number value =>
    obtain ⟨char, more, text⟩ := exists_cons_of_ne_nil (N.filled value)
    have solid := numeral_solid (N.numeral value char (by simp [text]))
    exact ⟨char, more ++ rest, by rw [Json.text, text]; rfl, solid.1, solid.2.1⟩
  | infinity negative => exact ⟨_, _, rfl, rfl, by decide⟩
  | string value => exact ⟨_, _, rfl, rfl, by decide⟩
  | array items => exact ⟨_, _, rfl, rfl, by decide⟩
  | object members => exact ⟨_, _, rfl, rfl, by decide⟩

theorem text_length (value : Json ν) : 0 < (value.text N).length := by
  obtain ⟨char, after, text, -⟩ := text_head (N := N) value []
  rw [append_nil] at text
  simp [text]

theorem readBack_of_succ {value : Json ν} (succ : ∀ n rest, (value.text N).length ≤ n + 1 → Delimited rest →
    readValue N (n + 1) (value.text N ++ rest) = some (value, rest)) : ReadBack N value := by
  intro n rest fuel delimited
  obtain ⟨n, rfl⟩ := exists_eq_add_one_of_ne_zero (Nat.pos_iff_ne_zero.mp (lt_of_lt_of_le (text_length _) fuel))
  exact succ n rest fuel delimited

theorem readBack_string (value : List Char) : ReadBack N (.string value) := by
  refine readBack_of_succ fun n rest fuel _ => ?_
  have closed := readString_written value rest
  simp only [Json.text, quote, append_assoc, cons_append, nil_append] at closed ⊢
  rw [readValue, skipSpace_cons (by rfl)]
  simp only [closed]
  rfl

theorem numeral_prefix {text rest : List Char} (numeral : ∀ char ∈ text, isNumeral char = true)
    (delimited : Delimited rest) :
    (text ++ rest).takeWhile isNumeral = text ∧ (text ++ rest).dropWhile isNumeral = rest := by
  rw [takeWhile_append_of_pos numeral, dropWhile_append_of_pos numeral]
  cases rest with
  | nil => simp
  | cons char rest =>
    have stops := delimited char rfl
    rw [takeWhile_cons_of_neg (by simp [stops]), dropWhile_cons_of_neg (by simp [stops]), append_nil]
    exact ⟨rfl, rfl⟩

theorem readBack_number (value : ν) : ReadBack N (.number value) := by
  refine readBack_of_succ fun n rest fuel delimited => ?_
  have filled := N.filled value
  obtain ⟨taken, dropped⟩ := numeral_prefix (N.numeral value) delimited
  obtain ⟨char, more, text⟩ := exists_cons_of_ne_nil filled
  obtain ⟨solid, others⟩ := numeral_solid (N.numeral value char (by simp [text]))
  have skipped : skipSpace (N.toText value ++ rest) = N.toText value ++ rest := by
    rw [text, cons_append, skipSpace_cons solid]
  rw [Json.text, readValue, skipped]
  split
  case h_7 =>
    rw [taken, dropped, if_neg filled, N.ofText_toText, map_some]
    rfl
  all_goals
    rename_i same
    rw [text] at same
    obtain ⟨rfl, -⟩ := List.cons.inj same
    simp at others

section Steps

variable {n : ℕ} {text rest : List Char} {key : List Char} {value : Json ν}

theorem readItems_more {item : Json ν} (read : readValue N n text = some (item, ',' :: rest)) :
    readItems N (n + 1) text = (readItems N n rest).map (Prod.map (item :: ·) id) := by
  rw [readItems, read]
  rfl

theorem readItems_last {item : Json ν} (read : readValue N n text = some (item, ']' :: rest)) :
    readItems N (n + 1) text = some ([item], rest) := by
  rw [readItems, read]
  rfl

theorem readMembers_more (read : readValue N n text = some (value, ',' :: rest)) :
    readMembers N (n + 1) (quote key ++ ':' :: text) =
      (readMembers N n rest).map (Prod.map ((key, value) :: ·) id) := by
  have closed := readString_written key (':' :: text)
  simp only [quote, append_assoc, cons_append, nil_append] at closed ⊢
  rw [readMembers, skipSpace_cons (by rfl)]
  simp only [closed, bind_eq_bind, bind_some]
  rw [skipSpace_cons (by rfl)]
  simp only [read, bind_some]
  rfl

theorem readMembers_last (read : readValue N n text = some (value, '\x7d' :: rest)) :
    readMembers N (n + 1) (quote key ++ ':' :: text) = some ([(key, value)], rest) := by
  have closed := readString_written key (':' :: text)
  simp only [quote, append_assoc, cons_append, nil_append] at closed ⊢
  rw [readMembers, skipSpace_cons (by rfl)]
  simp only [closed, bind_eq_bind, bind_some]
  rw [skipSpace_cons (by rfl)]
  simp only [read, bind_some]
  rfl

end Steps

theorem readItems_texts {items : List (Json ν)} (filled : items ≠ [])
    (each : ∀ item ∈ items, ReadBack N item) (n : ℕ) (rest : List Char)
    (fuel : (separated (items.map (Json.text N))).length < n) :
    readItems N n (separated (items.map (Json.text N)) ++ ']' :: rest) = some (items, rest) := by
  induction items generalizing n with
  | nil => exact absurd rfl filled
  | cons item items ih =>
    obtain ⟨n, rfl⟩ := exists_eq_add_one_of_ne_zero (by omega : n ≠ 0)
    rw [forall_mem_cons] at each
    cases items with
    | nil =>
      simp only [map_cons, map_nil, separated, flatMap_nil, append_nil] at fuel ⊢
      exact readItems_last (each.1 n _ (by omega) (delimited_cons rfl _))
    | cons next items =>
      simp only [map_cons, separated_cons_cons, length_append, length_cons,
        append_assoc, cons_append] at fuel ih ⊢
      rw [readItems_more (each.1 n _ (by omega) (delimited_cons rfl _)), ih (by simp) each.2 n (by omega)]
      rfl

variable {members : List (List Char × Json ν)}

theorem readMembers_texts (filled : members ≠ [])
    (each : ∀ member ∈ members, ReadBack N member.2) (n : ℕ) (rest : List Char)
    (fuel : (separated (members.map (memberText N))).length < n) :
    readMembers N n (separated (members.map (memberText N)) ++ '\x7d' :: rest) = some (members, rest) := by
  induction members generalizing n with
  | nil => exact absurd rfl filled
  | cons member members ih =>
    obtain ⟨n, rfl⟩ := exists_eq_add_one_of_ne_zero (by omega : n ≠ 0)
    rw [forall_mem_cons] at each
    cases members with
    | nil =>
      simp only [map_cons, map_nil, separated, flatMap_nil, append_nil,
        memberText, length_append, length_cons, append_assoc,
        cons_append] at fuel ⊢
      exact readMembers_last (each.1 n _ (by omega) (delimited_cons rfl _))
    | cons next members =>
      simp only [map_cons, separated_cons_cons] at fuel ih ⊢
      rw [memberText] at fuel ⊢
      simp only [length_append, length_cons, append_assoc, cons_append] at fuel ih ⊢
      rw [readMembers_more (each.1 n _ (by omega) (delimited_cons rfl _)), ih (by simp) each.2 n (by omega)]
      rfl

theorem readBack_array {items : List (Json ν)} (each : ∀ item ∈ items, ReadBack N item) :
    ReadBack N (.array items) := by
  refine readBack_of_succ fun n rest fuel _ => ?_
  rw [Json.text, itemTexts_eq] at fuel ⊢
  simp only [length_append, length_cons, length_nil] at fuel
  rw [append_assoc, cons_append, readValue, skipSpace_cons (by rfl)]
  cases items with
  | nil => rfl
  | cons item items =>
    have read := readItems_texts (by simp) each n rest (by omega)
    obtain ⟨char, after, text, solid, other⟩ := text_head (N := N) item
      ((items.map (Json.text N)).flatMap (fun text => ',' :: text) ++ ']' :: rest)
    have start : separated ((item :: items).map (Json.text N)) ++ ']' :: rest = char :: after := by
      rw [← text, map_cons, separated, append_assoc]
    simp only [singleton_append]
    rw [start] at read ⊢
    rw [skipSpace_cons solid]
    split
    · rename_i same
      exact absurd (List.cons.inj same).1 other
    · rw [read]
      rfl

variable {value : Json ν}

theorem setEntry_new {key : List Char} {own : List (List Char × Json ν)} (absent : key ∉ own.map Prod.fst) :
    OrderedMap.setEntry key value own = own ++ [(key, value)] := by
  induction own with
  | nil => rfl
  | cons entry own ih =>
    rw [map_cons, mem_cons, not_or] at absent
    rw [OrderedMap.setEntry, if_neg (Ne.symm absent.1), ih absent.2, cons_append]

theorem ownMembers_distinct (distinct : (members.map Prod.fst).Nodup) : ownMembers members = members := by
  suffices added : ∀ own : List (List Char × Json ν), ((own ++ members).map Prod.fst).Nodup →
      members.foldl (fun own member => OrderedMap.setEntry member.1 member.2 own) own =
        own ++ members from added [] distinct
  clear distinct
  induction members with
  | nil => exact fun own _ => (append_nil own).symm
  | cons member members ih =>
    intro own distinct
    have absent : member.1 ∉ own.map Prod.fst := by
      rw [map_append, map_cons] at distinct
      exact fun present => (nodup_append.mp distinct).2.2 _ present _ mem_cons_self rfl
    rw [foldl_cons, setEntry_new absent, ih, append_assoc, singleton_append]
    rwa [append_assoc, singleton_append]

theorem readBack_object (distinct : (members.map Prod.fst).Nodup) (each : ∀ member ∈ members, ReadBack N member.2) :
    ReadBack N (.object members) := by
  refine readBack_of_succ fun n rest fuel _ => ?_
  rw [Json.text, memberTexts_eq] at fuel ⊢
  simp only [length_append, length_cons, length_nil] at fuel
  rw [append_assoc, cons_append, readValue, skipSpace_cons (by rfl)]
  cases members with
  | nil => rfl
  | cons member members =>
    have read := readMembers_texts (by simp) each n rest (by omega)
    obtain ⟨after, start⟩ : ∃ after, separated ((member :: members).map (memberText N)) ++
      '\x7d' :: rest = '"' :: after := ⟨_, rfl⟩
    simp only [singleton_append]
    rw [start] at read ⊢
    rw [skipSpace_cons (by rfl)]
    simp only [read, map_some, Prod.map, Function.comp, ownMembers_distinct distinct, id]
    rfl

/-- A JSON value of the language: no number is infinite, and the keys of an object are distinct. -/
inductive Proper : Json ν → Prop
  | null : Proper .null
  | boolean (value : Bool) : Proper (.boolean value)
  | number (value : ν) : Proper (.number value)
  | string (value : List Char) : Proper (.string value)
  | array {items : List (Json ν)} : (∀ item ∈ items, Proper item) → Proper (.array items)
  | object {members : List (List Char × Json ν)} : (members.map Prod.fst).Nodup →
      (∀ member ∈ members, Proper member.2) → Proper (.object members)

theorem readBack_word (word : ∀ n rest, readValue N (n + 1) (value.text N ++ rest) = some (value, rest)) :
    ReadBack N value :=
  readBack_of_succ fun n rest _ _ => word n rest

theorem readBack (proper : Proper value) : ReadBack N value := by
  induction value with
  | null => exact readBack_word fun _ _ => rfl
  | boolean value => cases value <;> exact readBack_word fun _ _ => rfl
  | number value => exact readBack_number value
  | infinity negative => cases proper
  | string value => exact readBack_string value
  | array items ih =>
    cases proper with
    | array each => exact readBack_array fun item member => ih item member (each item member)
  | object members ih =>
    cases proper with
    | object distinct each =>
      exact readBack_object distinct fun member listed => ih member listed (each member listed)

/-- `JSON.parse` gives back what `JSON.stringify` has written. -/
theorem parseJson_text (proper : Proper value) : parseJson N (value.text N) = some value := by
  have read := readBack (N := N) proper ((value.text N).length + 1) [] (by omega)
    fun char none => by cases none
  rw [append_nil] at read
  rw [parseJson, read]
  rfl

end RoundTrip

section Weight

def weight (text : List Char) : ℕ := text.countP fun char => !isNumeral char

@[simp] theorem weight_nil : weight [] = 0 := rfl

@[simp] theorem weight_append (text more : List Char) :
    weight (text ++ more) = weight text + weight more := countP_append

theorem weight_cons (char : Char) (text : List Char) : weight (char :: text) = weight [char] + weight text := by
  rw [← singleton_append, weight_append]

theorem weight_char (char : Char) : weight [char] = if isNumeral char then 0 else 1 := by
  cases numeral : isNumeral char <;> simp [weight, numeral]

theorem weight_char_le (char : Char) : weight [char] ≤ 1 := by
  rw [weight_char]
  split_ifs <;> omega

variable {text : List Char}

theorem weight_numeral (numeral : ∀ char ∈ text, isNumeral char = true) : weight text = 0 := by
  rw [weight, countP_eq_zero]
  intro char member
  simp [numeral char member]

theorem weight_skipSpace (text : List Char) : weight (skipSpace text) ≤ weight text :=
  (dropWhile_sublist _).countP_le

variable {rest : List Char} {char : Char} {unit : ℕ}

theorem weight_skipped (skipped : skipSpace text = char :: rest) : weight [char] + weight rest ≤ weight text := by
  rw [← weight_cons, ← skipped]
  exact weight_skipSpace text

theorem isNumeral_short {short : Char} (found : shortEscapes.lookup char = some short) : isNumeral short = false := by
  have table : (shortEscapes.all fun entry => !isNumeral entry.2) = true := by decide
  simpa using List.all_eq_true.mp table _ (lookup_mem found)

theorem weight_backslash (text : List Char) : weight ('\\' :: text) = 1 + weight text := by
  rw [weight_cons, weight_char, if_neg (by decide)]

theorem weight_u (text : List Char) : weight ('u' :: text) = 1 + weight text := by
  rw [weight_cons, weight_char, if_neg (by decide)]

theorem weight_unicode (high low : Char) :
    weight ['\\', 'u', '0', '0', high, low] = 2 + weight [high] + weight [low] := by
  have zero : weight ['0'] = 0 := rfl
  rw [weight_backslash, weight_u, weight_cons '0' ['0', high, low], weight_cons '0' [high, low],
    weight_cons high [low], zero]
  omega

theorem weight_writeChar (char : Char) : weight (writeChar char) ≤ if char.toNat < 32 then
      2 + weight [Nat.digitChar (char.toNat / 16)] + weight [Nat.digitChar (char.toNat % 16)]
      else 2 := by
  rw [writeChar]
  cases short : shortEscapes.lookup char with
  | some escape =>
    simp only
    rw [weight_backslash, weight_char, isNumeral_short short]
    simp only [Bool.false_eq_true, if_false]
    split_ifs <;> omega
  | none =>
    simp only
    split_ifs with control
    · rw [weight_unicode]
    · have plain := weight_char_le char
      omega

theorem weight_hex {digit : Char} {value : ℕ} (found : hexDigits.lookup digit = some value) :
    weight [digit] = weight [Nat.digitChar value] ∧ value < 16 := by
  have table : (hexDigits.all fun entry =>
      weight [entry.1] == weight [Nat.digitChar entry.2] && decide (entry.2 < 16)) =
        true := by decide
  have entry := List.all_eq_true.mp table _ (lookup_mem found)
  rw [Bool.and_eq_true, beq_iff_eq, decide_eq_true_eq] at entry
  exact entry

theorem weight_readHex4 (read : readHex4 text = some (unit, rest)) :
    weight [Nat.digitChar (unit / 16 % 16)] + weight [Nat.digitChar (unit % 16)] + weight rest ≤
      weight text := by
  match text with
  | a :: b :: c :: d :: rest' =>
    simp only [readHex4, Option.bind_eq_bind, Option.pure_def, Option.bind_eq_some_iff] at read
    obtain ⟨va, _, vb, _, vc, third, vd, fourth, same⟩ := read
    obtain ⟨rfl, rfl⟩ := Prod.mk.inj (Option.some.inj same)
    obtain ⟨thirdWeight, thirdSmall⟩ := weight_hex third
    obtain ⟨fourthWeight, fourthSmall⟩ := weight_hex fourth
    have high : (((va * 16 + vb) * 16 + vc) * 16 + vd) / 16 % 16 = vc := by omega
    have low : (((va * 16 + vb) * 16 + vc) * 16 + vd) % 16 = vd := by omega
    rw [high, low, weight_cons a, weight_cons b, weight_cons c, weight_cons d]
    omega

theorem readHex4_lt (read : readHex4 text = some (unit, rest)) : unit < 65536 := by
  match text with
  | a :: b :: c :: d :: rest' =>
    simp only [readHex4, Option.bind_eq_bind, Option.pure_def, Option.bind_eq_some_iff] at read
    obtain ⟨va, first, vb, second, vc, third, vd, fourth, same⟩ := read
    obtain ⟨rfl, rfl⟩ := Prod.mk.inj (Option.some.inj same)
    have := (weight_hex first).2
    have := (weight_hex second).2
    have := (weight_hex third).2
    have := (weight_hex fourth).2
    omega

theorem weight_readEscape (read : readEscape text = some (char, rest)) :
    weight (writeChar char) + weight rest ≤ 1 + weight text := by
  have written := weight_writeChar char
  rw [readEscape.eq_def] at read
  split at read
  · simp only [bind_eq_bind, bind_eq_some_iff] at read
    obtain ⟨⟨unit, after⟩, digits, read⟩ := read
    have first := weight_readHex4 digits
    simp only at read
    rw [weight_u]
    split_ifs at read with leading trailing
    · split at read
      · rename_i more
        simp only [bind_eq_some_iff] at read
        obtain ⟨⟨low, others⟩, lowDigits, read⟩ := read
        have second := weight_readHex4 lowDigits
        simp only at read
        split_ifs at read
        obtain ⟨-, rfl⟩ := Prod.mk.inj (Option.some.inj read)
        rw [weight_backslash, weight_u] at first
        have bound : weight (writeChar char) ≤ 4 := by
          have high := weight_char_le (Nat.digitChar (char.toNat / 16))
          have low := weight_char_le (Nat.digitChar (char.toNat % 16))
          split_ifs at written <;> omega
        omega
      · cases read
    · obtain ⟨rfl, rfl⟩ := Prod.mk.inj (Option.some.inj read)
      have small := readHex4_lt digits
      have valid : unit.isValidChar := by
        rw [Nat.isValidChar]
        omega
      have value : (Char.ofNat unit).toNat = unit := by
        rw [Char.ofNat, dif_pos valid]
        rfl
      rw [value] at written
      split_ifs at written with control
      · rw [mod_eq_of_lt (show unit / 16 < 16 by omega)] at first
        omega
      · omega
  · obtain ⟨_, found, same⟩ := Option.map_eq_some_iff.mp read
    obtain ⟨rfl, rfl⟩ := Prod.mk.inj same
    have table : (unescapes.all fun entry =>
        decide (weight (writeChar entry.2) ≤ 1 + weight [entry.1])) = true := by decide
    have entry := of_decide_eq_true (List.all_eq_true.mp table _ (lookup_mem found))
    rw [weight_cons]
    simp only at entry
    omega
  · cases read

theorem lookup_shortEscapes (quoted : char ≠ '"') (escaped : char ≠ '\\')
    (printable : 32 ≤ char.toNat) : shortEscapes.lookup char = none := by
  cases short : shortEscapes.lookup char with
  | none => rfl
  | some escape =>
    have table : (shortEscapes.all fun entry =>
        entry.1 == '"' || entry.1 == '\\' || decide (entry.1.toNat < 32)) = true := by decide
    have entry := List.all_eq_true.mp table _ (lookup_mem short)
    simp [quoted, escaped, Nat.not_lt.mpr printable] at entry

theorem weight_readChar (read : readChar text = some (char, rest)) :
    weight (writeChar char) + weight rest ≤ weight text := by
  rw [readChar.eq_def] at read
  split at read
  · rw [weight_backslash]
    exact weight_readEscape read
  · rename_i escaped
    split_ifs at read with ends
    rw [not_or, not_lt] at ends
    obtain ⟨rfl, rfl⟩ := Prod.mk.inj (Option.some.inj read)
    have short := lookup_shortEscapes ends.1 escaped ends.2
    rw [writeChar_plain short ends.2, ← weight_cons]
  · cases read

theorem weight_readString {n : ℕ} {value : List Char} (read : readString n text = some (value, rest)) :
    weight (value.flatMap writeChar) + 1 + weight rest ≤ weight text := by
  induction n generalizing text value rest with
  | zero => cases read
  | succ n ih =>
    rw [readString.eq_def] at read
    split at read
    · cases read
    · obtain ⟨rfl, rfl⟩ := Prod.mk.inj (Option.some.inj read)
      rw [weight_cons]
      simp [weight_char, isNumeral]
    · rename_i n same _
      obtain rfl := Nat.succ.inj same
      simp only [Option.bind_eq_bind, Option.pure_def, Option.bind_eq_some_iff] at read
      obtain ⟨⟨char, after⟩, first, ⟨more, others⟩, second, read⟩ := read
      obtain ⟨rfl, rfl⟩ := Prod.mk.inj (Option.some.inj read)
      have front := weight_readChar first
      have back := ih second
      simp only at front back ⊢
      rw [flatMap_cons, weight_append]
      omega

theorem weight_quote (value : List Char) : weight (quote value) = weight (value.flatMap writeChar) + 2 := by
  have mark : weight ['"'] = 1 := rfl
  rw [quote, weight_append, weight_cons, mark]
  omega

/-- The weight of texts with commas between them, and of a bracket after them. -/
def weights (texts : List (List Char)) : ℕ := (texts.map fun text => weight text + 1).sum

theorem weight_separated {texts : List (List Char)} (filled : texts ≠ []) :
    weight (separated texts) + 1 = weights texts := by
  induction texts with
  | nil => exact absurd rfl filled
  | cons text texts ih =>
    cases texts with
    | nil => simp [separated, weights]
    | cons next texts =>
      have comma : weight [','] = 1 := rfl
      have rest := ih (by simp)
      rw [separated_cons_cons, weight_append, weight_cons, comma, weights, map_cons,
        sum_cons, ← weights, ← rest]
      omega

theorem sum_setEntry (f : List Char × Json ν → ℕ) (key : List Char) (value : Json ν) (own : List (List Char × Json ν)) :
    ((OrderedMap.setEntry key value own).map f).sum ≤ (own.map f).sum + f (key, value) := by
  induction own with
  | nil => simp [OrderedMap.setEntry]
  | cons entry own ih =>
    rw [OrderedMap.setEntry]
    split_ifs
    · simp only [map_cons, sum_cons]
      omega
    · simp only [map_cons, sum_cons] at ih ⊢
      omega

/-- Members that are set again add nothing. -/
theorem sum_ownMembers (f : List Char × Json ν → ℕ) (members : List (List Char × Json ν)) :
    ((ownMembers members).map f).sum ≤ (members.map f).sum := by
  suffices added : ∀ own : List (List Char × Json ν),
      ((members.foldl (fun own member => OrderedMap.setEntry member.1 member.2 own) own).map f).sum ≤
        (own.map f).sum + (members.map f).sum by
    have start := added []
    rwa [map_nil, sum_nil, zero_add] at start
  induction members with
  | nil => simp
  | cons member members ih =>
    intro own
    have set := sum_setEntry f member.1 member.2 own
    have more := ih (OrderedMap.setEntry member.1 member.2 own)
    rw [foldl_cons, map_cons, sum_cons]
    change _ ≤ _ + (f (member.1, member.2) + _)
    omega

section Heft

variable (N : Numerals ν)

open Classical in
/-- What a proper value weighs when it is written; no other value has a text that is read as it. -/
noncomputable def heft (value : Json ν) : ℕ := if Proper value then weight (value.text N) else 0

theorem heft_proper {value : Json ν} (proper : Proper value) : heft N value = weight (value.text N) := if_pos proper

theorem heft_le (value : Json ν) : heft N value ≤ weight (value.text N) := by
  rw [heft]
  split_ifs
  · exact le_refl _
  · exact zero_le _

/-- The heft of a member, with the colon in it and a comma or a bracket after it. -/
noncomputable def memberHeft (member : List Char × Json ν) : ℕ :=
  weight (quote member.1) + 1 + heft N member.2 + 1

theorem heft_array {items : List (Json ν)} (filled : items ≠ []) :
    heft N (.array items) ≤ 1 + (items.map fun item => heft N item + 1).sum := by
  have marks : weight ['['] = 1 ∧ weight [']'] = 1 := ⟨rfl, rfl⟩
  by_cases proper : Proper (.array items)
  · have inside := weight_separated (map_eq_nil_iff.not.mpr filled : items.map (Json.text N) ≠ [])
    have same : weights (items.map (Json.text N)) = (items.map fun item => heft N item + 1).sum := by
      cases proper with
      | array each =>
        rw [weights, List.map_map]
        exact congrArg sum (map_congr_left fun item member => by rw [heft_proper N (each item member)]; rfl)
    rw [heft_proper N proper, Json.text, itemTexts_eq, weight_append, weight_cons, marks.1, marks.2]
    omega
  · rw [heft, if_neg proper]
    exact zero_le _

theorem heft_object {members : List (List Char × Json ν)} (filled : members ≠ []) :
    heft N (.object (ownMembers members)) ≤ 1 + (members.map (memberHeft N)).sum := by
  have marks : weight ['\x7b'] = 1 ∧ weight ['\x7d'] = 1 := ⟨rfl, rfl⟩
  have kept := sum_ownMembers (memberHeft N) members
  by_cases proper : Proper (.object (ownMembers members))
  · rw [heft_proper N proper, Json.text, memberTexts_eq, weight_append, weight_cons, marks.1, marks.2]
    by_cases none : ownMembers members = []
    · obtain ⟨member, members, rfl⟩ := exists_cons_of_ne_nil filled
      have empty : weight (separated []) = 0 := rfl
      rw [none, map_nil, empty, map_cons, sum_cons, memberHeft]
      omega
    · have inside := weight_separated (map_eq_nil_iff.not.mpr none : (ownMembers members).map (memberText N) ≠ [])
      have same : weights ((ownMembers members).map (memberText N)) = ((ownMembers members).map (memberHeft N)).sum := by
        cases proper with
        | object _ each =>
          rw [weights, List.map_map]
          refine congrArg sum (map_congr_left fun member listed => ?_)
          have colon : weight [':'] = 1 := rfl
          rw [Function.comp, memberText, memberHeft, heft_proper N (each member listed), weight_append, weight_cons ':',
            colon]
          omega
      omega
  · rw [heft, if_neg proper]
    exact zero_le _

end Heft

section Values

variable {N : Numerals ν} {n : ℕ} {text rest : List Char}

theorem of_map_fst {α β : Type} {read : Option (α × List Char)} {f : α → β} {value : β}
    (same : read.map (Prod.map f id) = some (value, rest)) : ∃ found, read = some (found, rest) ∧ f found = value := by
  obtain ⟨⟨found, _⟩, reading, same⟩ := map_eq_some_iff.mp same
  obtain ⟨rfl, rfl⟩ := Prod.mk.inj same
  exact ⟨found, reading, rfl⟩

def Light (N : Numerals ν) (n : ℕ) : Prop :=
  ∀ text value rest, readValue N n text = some (value, rest) → heft N value + weight rest ≤ weight text

def LightItems (N : Numerals ν) (n : ℕ) : Prop :=
  ∀ text items rest, readItems N n text = some (items, rest) →
    items ≠ [] ∧ (items.map fun item => heft N item + 1).sum + weight rest ≤ weight text

def LightMembers (N : Numerals ν) (n : ℕ) : Prop :=
  ∀ text members rest, readMembers N n text = some (members, rest) →
    members ≠ [] ∧ (members.map (memberHeft N)).sum + weight rest ≤ weight text

theorem lightItems_succ (values : Light N n) (items : LightItems N n) : LightItems N (n + 1) := by
  intro text all rest read
  rw [readItems] at read
  obtain ⟨⟨item, after⟩, first, read⟩ := bind_eq_some_iff.mp read
  have front := values _ _ _ first
  simp only at read
  split at read
  · rename_i more skipped
    obtain ⟨others, found, rfl⟩ := of_map_fst read
    have back := (items _ _ _ found).2
    have comma := weight_skipped skipped
    have mark : weight [','] = 1 := rfl
    refine ⟨cons_ne_nil _ _, ?_⟩
    rw [map_cons, sum_cons]
    omega
  · rename_i more skipped
    obtain ⟨rfl, rfl⟩ := Prod.mk.inj (some.inj read)
    have bracket := weight_skipped skipped
    have mark : weight [']'] = 1 := rfl
    refine ⟨cons_ne_nil _ _, ?_⟩
    rw [map_cons, sum_cons, map_nil, sum_nil]
    omega
  · cases read

theorem lightMembers_succ (values : Light N n) (members : LightMembers N n) : LightMembers N (n + 1) := by
  intro text all rest read
  rw [readMembers] at read
  split at read
  · rename_i inner opened
    have start := weight_skipped opened
    have marks : weight ['"'] = 1 ∧ weight [':'] = 1 ∧ weight [','] = 1 ∧ weight ['\x7d'] = 1 :=
      ⟨rfl, rfl, rfl, rfl⟩
    obtain ⟨⟨key, after⟩, named, read⟩ := Option.bind_eq_some_iff.mp read
    have name := weight_readString named
    simp only at read
    split at read
    · rename_i inner colon
      have colon := weight_skipped colon
      obtain ⟨⟨value, after⟩, valued, read⟩ := Option.bind_eq_some_iff.mp read
      have front := values _ _ _ valued
      have member : memberHeft N (key, value) = weight (key.flatMap writeChar) + 2 + 1 + heft N value + 1 := by
        rw [memberHeft, weight_quote]
      simp only at read
      split at read
      · rename_i more skipped
        obtain ⟨others, found, rfl⟩ := of_map_fst read
        have back := (members _ _ _ found).2
        have comma := weight_skipped skipped
        refine ⟨cons_ne_nil _ _, ?_⟩
        rw [map_cons, sum_cons, member]
        omega
      · rename_i more skipped
        obtain ⟨rfl, rfl⟩ := Prod.mk.inj (Option.some.inj read)
        have bracket := weight_skipped skipped
        refine ⟨cons_ne_nil _ _, ?_⟩
        rw [map_cons, sum_cons, map_nil, sum_nil, member]
        omega
      · cases read
    · cases read
  · cases read

theorem light_succ (items : LightItems N n) (members : LightMembers N n) : Light N (n + 1) := by
  intro text value rest read
  have space := weight_skipSpace text
  rw [readValue] at read
  split at read
  · rename_i inner start
    have mark : weight ['"'] = 1 := rfl
    have opened := weight_skipped start
    obtain ⟨found, reading, rfl⟩ := of_map_fst read
    have string := weight_readString reading
    have written := heft_le N (.string found)
    rw [Json.text, weight_quote] at written
    omega
  · rename_i inner start
    have marks : weight ['['] = 1 ∧ weight [']'] = 1 := ⟨rfl, rfl⟩
    have opened := weight_skipped start
    split at read
    · rename_i closing
      have closed := weight_skipped closing
      obtain ⟨rfl, rfl⟩ := Prod.mk.inj (some.inj read)
      have written : heft N (.array []) ≤ 2 := heft_le N (.array [])
      omega
    · obtain ⟨found, reading, rfl⟩ := of_map_fst read
      obtain ⟨filled, bound⟩ := items _ _ _ reading
      have array := heft_array N filled
      omega
  · rename_i inner start
    have marks : weight ['\x7b'] = 1 ∧ weight ['\x7d'] = 1 := ⟨rfl, rfl⟩
    have opened := weight_skipped start
    split at read
    · rename_i closing
      have closed := weight_skipped closing
      obtain ⟨rfl, rfl⟩ := Prod.mk.inj (some.inj read)
      have written : heft N (.object []) ≤ 2 := heft_le N (.object [])
      omega
    · obtain ⟨found, reading, rfl⟩ := of_map_fst read
      obtain ⟨filled, bound⟩ := members _ _ _ reading
      have object := heft_object N filled
      rw [Function.comp]
      omega
  iterate 3
    · rename_i start
      obtain ⟨rfl, rfl⟩ := Prod.mk.inj (some.inj read)
      refine Nat.le_trans (Nat.add_le_add_right (heft_le N _) _) ?_
      rw [← weight_append]
      rwa [start] at space
  · split_ifs at read
    obtain ⟨found, reading, same⟩ := map_eq_some_iff.mp read
    obtain ⟨rfl, rfl⟩ := Prod.mk.inj same
    have numeral : heft N found.value = 0 := by
      cases found with
      | finite found => exact (heft_proper N (.number found)).trans (weight_numeral (N.numeral found))
      | infinity negative => exact if_neg nofun
    have dropped : weight ((skipSpace text).dropWhile isNumeral) ≤ weight (skipSpace text) :=
      (dropWhile_sublist _).countP_le
    omega

theorem light (n : ℕ) : Light N n ∧ LightItems N n ∧ LightMembers N n := by
  induction n with
  | zero =>
    refine ⟨fun text value rest read => ?_, fun text items rest read => ?_,
      fun text members rest read => ?_⟩ <;> cases read
  | succ n ih =>
    exact ⟨light_succ ih.2.1 ih.2.2, lightItems_succ ih.1 ih.2.1, lightMembers_succ ih.1 ih.2.2⟩

theorem weight_parseJson {value : Json ν} (proper : Proper value) (parsed : parseJson N text = some value) :
    weight (value.text N) ≤ weight text := by
  obtain ⟨⟨value', rest⟩, read, same⟩ := bind_eq_some_iff.mp parsed
  have bound := (light _).1 _ _ _ read
  simp only at same
  split_ifs at same
  rw [← heft_proper N proper, ← some.inj same]
  omega

end Values

end Weight

/-! ## The integers among the numbers -/

/-- An integer that no other number is rounded to. -/
def IsSafeInteger (x : ℚ) : Prop := x.den = 1 ∧ x.num.natAbs < 2 ^ 53

instance : DecidablePred IsSafeInteger := fun _ => inferInstanceAs (Decidable (_ ∧ _))

def integerText : ℤ → List Char
  | .ofNat n => Nat.toDigits 10 n
  | .negSucc n => '-' :: Nat.toDigits 10 (n + 1)

def readNatural (digits : List Char) : Option ℕ :=
  if digits.all Char.isDigit ∧ Nat.toDigits 10 (Nat.ofDigitChars 10 digits 0) = digits then
    some (Nat.ofDigitChars 10 digits 0)
  else none

def readInteger : List Char → Option ℤ
  | '-' :: digits => (readNatural digits).map fun n => -n
  | digits => (readNatural digits).map fun n => n

theorem readNatural_toDigits (n : ℕ) : readNatural (Nat.toDigits 10 n) = some n := by
  have digits : (Nat.toDigits 10 n).all Char.isDigit = true :=
    List.all_eq_true.mpr fun _ => isDigit_of_mem_toDigits (by decide) (by decide)
  rw [readNatural, ofDigitChars_ten_toDigits, if_pos ⟨digits, rfl⟩]

theorem isNumeral_digit {n : ℕ} {char : Char} (member : char ∈ Nat.toDigits 10 n) :
    isNumeral char = true ∧ char ≠ '-' := by
  have digit := isDigit_of_mem_toDigits (by decide) (by decide) member
  refine ⟨by simp [isNumeral, digit], ?_⟩
  rintro rfl
  cases digit

theorem readInteger_integerText (n : ℤ) : readInteger (integerText n) = some n := by
  cases n with
  | ofNat n =>
    rw [integerText, readInteger, readNatural_toDigits]
    · rfl
    · rintro digits same
      exact (isNumeral_digit (same ▸ mem_cons_self)).2 rfl
  | negSucc n =>
    rw [integerText, readInteger, readNatural_toDigits]
    rfl

/-- The safe integers; the numerals of other numbers are not read. -/
def safeIntegers : Numerals {x // IsSafeInteger x} where
  toText x := integerText x.val.num
  ofText text := (readInteger text).bind fun n =>
    if safe : n.natAbs < 2 ^ 53 then some (.finite ⟨n, rfl, safe⟩) else none
  filled x := by
    cases x.val.num with
    | ofNat n => exact ne_nil_of_length_pos length_toDigits_pos
    | negSucc n => exact cons_ne_nil _ _
  numeral x char member := by
    cases whole : x.val.num with
    | ofNat n =>
      rw [whole] at member
      exact (isNumeral_digit member).1
    | negSucc n =>
      rw [whole] at member
      rcases mem_cons.mp member with rfl | digit
      · rfl
      · exact (isNumeral_digit digit).1
  ofText_toText x := by
    have same : (⟨(x.val.num : ℚ), rfl, x.property.2⟩ : {x // IsSafeInteger x}) = x :=
      Subtype.ext (Rat.coe_int_num_of_den_eq_one x.property.1)
    rw [readInteger_integerText, bind_some, dif_pos x.property.2, same]

end N8n.JsonReader
