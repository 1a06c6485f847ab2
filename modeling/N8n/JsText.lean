import Mathlib.Data.List.DropRight

/-! White space as `\s` and `trim` count it. -/

namespace N8n.JsText

open List

def isWhiteSpace (char : Char) : Bool :=
  char ∈ ['\t', '\n', '\x0b', '\x0c', '\r', ' ', '\u00a0', '\u1680', '\u2028', '\u2029', '\u202f', '\u205f',
    '\u3000', '\ufeff'] ∨ '\u2000' ≤ char ∧ char ≤ '\u200a'

theorem alphanum_iff {char : Char} : char.isAlphanum = true ↔
    48 ≤ char.toNat ∧ char.toNat ≤ 57 ∨ 65 ≤ char.toNat ∧ char.toNat ≤ 90 ∨ 97 ≤ char.toNat ∧ char.toNat ≤ 122 := by
  have same : char.toNat = char.val.toNat := rfl
  delta Char.isAlphanum Char.isAlpha Char.isUpper Char.isLower
  simp only [Char.isDigit, Bool.or_eq_true, Bool.and_eq_true, decide_eq_true_eq, UInt32.le_iff_toNat_le, ge_iff_le, same]
  have bounds : 'A'.val.toNat = 65 ∧ 'Z'.val.toNat = 90 ∧ 'a'.val.toNat = 97 ∧
    'z'.val.toNat = 122 ∧ '0'.val.toNat = 48 ∧ '9'.val.toNat = 57 := by decide
  omega

theorem alphanum_solid {char : Char} (h : char.isAlphanum = true) : isWhiteSpace char = false := by
  have range := alphanum_iff.mp h
  rw [Bool.eq_false_iff]
  intro white
  rw [isWhiteSpace, decide_eq_true_eq] at white
  cases white with
  | inl listed =>
    have table : (['\t', '\n', '\x0b', '\x0c', '\r', ' ', '\u00a0', '\u1680', '\u2028', '\u2029',
      '\u202f', '\u205f', '\u3000', '\ufeff'].all fun space => !space.isAlphanum) = true := by decide
    have other := List.all_eq_true.mp table char listed
    rw [h] at other
    cases other
  | inr wide =>
    have bound : 8192 ≤ char.toNat := wide.1
    omega

section Between

variable {α : Type} {p : α → Bool} {before word after : List α}

/-- What is left between two stretches of `p` once they are dropped. -/
theorem drop_between (left : ∀ x ∈ before, p x = true)
    (first : ∀ x ∈ word.head?, p x = false) (last : ∀ x ∈ word.getLast?, p x = false)
    (filled : word ≠ []) (right : ∀ x ∈ after, p x = true) :
    ((before ++ word ++ after).dropWhile p).rdropWhile p = word := by
  obtain ⟨x, rest, rfl⟩ := exists_cons_of_ne_nil filled
  have start : (before ++ (x :: rest) ++ after).dropWhile p = x :: rest ++ after := by
    rw [append_assoc, dropWhile_append_of_pos left, cons_append,
      dropWhile_cons_of_neg (by simp [first x rfl])]
  have stop : (x :: rest).reverse.dropWhile p = (x :: rest).reverse := by
    cases reversed : (x :: rest).reverse with
    | nil => rfl
    | cons y others =>
      have ends : (x :: rest).getLast? = some y := by
        rw [← head?_reverse, reversed, head?_cons]
      rw [dropWhile_cons_of_neg (by simp [last y ends])]
  rw [start, List.rdropWhile, reverse_append,
    dropWhile_append_of_pos fun x member => right x (mem_reverse.mp member), stop,
    reverse_reverse]

end Between

def trimStart (text : List Char) : List Char := text.dropWhile isWhiteSpace

def trimEnd (text : List Char) : List Char := text.rdropWhile isWhiteSpace

def trim (text : List Char) : List Char := trimEnd (trimStart text)

theorem trim_eq_nil {text : List Char} : trim text = [] ↔ ∀ char ∈ text, isWhiteSpace char = true := by
  rw [trim, trimEnd, rdropWhile_eq_nil_iff, trimStart]
  refine ⟨fun blank => ?_, fun blank char member => blank char (dropWhile_sublist _ |>.mem member)⟩
  have dropped : text.dropWhile isWhiteSpace = [] := by
    by_contra filled
    have solid := head_dropWhile_not isWhiteSpace filled
    rw [blank _ (head_mem filled)] at solid
    cases solid
  exact dropWhile_eq_nil_iff.mp dropped

end N8n.JsText
