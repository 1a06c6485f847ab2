import Mathlib.Data.List.Nodup
import Mathlib.Data.List.Perm.Basic
import Mathlib.Tactic.Ring

/-! Decimal texts in the order of strings. Texts of one length are in the order of their
numbers; a longer text comes first when as many of its digits as the shorter one has are a
smaller number. Behind a separator that is no digit the text of a number can be told apart. -/

namespace N8n.DecimalOrder

open List Nat

def digitCount (n : ℕ) : ℕ := (Nat.toDigits 10 n).length

/-- The first digits of a number, `count` of them or all there are. -/
def leadingDigits (count n : ℕ) : ℕ := n / 10 ^ (digitCount n - count)

theorem digitCount_le_iff {n k : ℕ} (positive : 0 < k) : digitCount n ≤ k ↔ n < 10 ^ k :=
  length_toDigits_le_iff (by decide) positive

theorem digitCount_mono {n m : ℕ} (le : n ≤ m) : digitCount n ≤ digitCount m := by
  have bound := (digitCount_le_iff (n := m) length_toDigits_pos).mp (le_refl _)
  exact (digitCount_le_iff length_toDigits_pos).mpr (le.trans_lt bound)

theorem toDigits_append (n count : ℕ) (fewer : count < digitCount n) :
    ∃ last, Nat.toDigits 10 n = Nat.toDigits 10 (n / 10 ^ count) ++ last ∧ last.length = count := by
  induction count with
  | zero => exact ⟨[], by simp, rfl⟩
  | succ count ih =>
    obtain ⟨last, digits, length⟩ := ih (by omega)
    have more : 10 ≤ n / 10 ^ count := by
      by_contra small
      have single : Nat.toDigits 10 (n / 10 ^ count) = [(n / 10 ^ count).digitChar] :=
        toDigits_of_lt_base (by omega)
      rw [digitCount, digits, single, length_append, length_singleton, length] at fewer
      omega
    refine ⟨(n / 10 ^ count % 10).digitChar :: last, ?_, by simp [length]⟩
    rw [digits, toDigits_of_base_le (by decide) more, Nat.div_div_eq_div_mul, ← Nat.pow_succ]
    simp

/-! ## Lists of digits -/

theorem digit_bounds {c : Char} (isDigit : c.isDigit) : 48 ≤ c.toNat ∧ c.toNat ≤ 57 :=
  Char.isDigit_iff_toNat.mp isDigit

theorem ofDigitChars_lt (digits : List Char) (isDigit : ∀ c ∈ digits, c.isDigit) :
    Nat.ofDigitChars 10 digits 0 < 10 ^ digits.length := by
  induction digits with
  | nil => simp
  | cons c digits ih =>
    have rest := ih fun d member => isDigit d (mem_cons_of_mem _ member)
    have digit : c.toNat - '0'.toNat ≤ 9 := Nat.sub_le_sub_right (digit_bounds (isDigit c mem_cons_self)).2 48
    rw [ofDigitChars_cons, ofDigitChars_eq_ofDigitChars_zero, length_cons, pow_succ]
    simp only [mul_zero, zero_add]
    calc 10 ^ digits.length * (c.toNat - '0'.toNat) + Nat.ofDigitChars 10 digits 0
        < 10 ^ digits.length * 9 + 10 ^ digits.length :=
          add_lt_add_of_le_of_lt (mul_le_mul_left _ digit) rest
      _ = 10 ^ digits.length * 10 := by ring

theorem radix_lt_iff {radix high high' low low' : ℕ} (bound : low < radix) (bound' : low' < radix) :
    radix * high + low < radix * high' + low' ↔ high < high' ∨ high = high' ∧ low < low' := by
  rcases lt_trichotomy high high' with less | rfl | more
  · have step : radix * high + radix ≤ radix * high' := mul_le_mul_left radix less
    exact iff_of_true (by omega) (.inl less)
  · simp
  · have step : radix * high' + radix ≤ radix * high := mul_le_mul_left radix more
    exact iff_of_false (by omega) (by omega)

theorem digits_lt_iff {a b : List Char} (same : a.length = b.length) (digitsA : ∀ c ∈ a, c.isDigit)
    (digitsB : ∀ c ∈ b, c.isDigit) : a < b ↔ Nat.ofDigitChars 10 a 0 < Nat.ofDigitChars 10 b 0 := by
  induction a generalizing b with
  | nil =>
    obtain rfl := length_eq_zero_iff.mp same.symm
    simp
  | cons x a ih =>
    cases b with
    | nil => cases same
    | cons y b =>
      have sameTail : a.length = b.length := Nat.succ.inj same
      have tailA : ∀ c ∈ a, c.isDigit := fun c member => digitsA c (mem_cons_of_mem _ member)
      have tailB : ∀ c ∈ b, c.isDigit := fun c member => digitsB c (mem_cons_of_mem _ member)
      have boundA := ofDigitChars_lt a tailA
      have boundB := ofDigitChars_lt b tailB
      have digitX := digit_bounds (digitsA x mem_cons_self)
      have digitY := digit_bounds (digitsB y mem_cons_self)
      have value : ∀ (c : Char) (digits : List Char), Nat.ofDigitChars 10 (c :: digits) 0 =
          10 ^ digits.length * (c.toNat - 48) + Nat.ofDigitChars 10 digits 0 := by
        intro c digits
        rw [ofDigitChars_cons, ofDigitChars_eq_ofDigitChars_zero, mul_zero, zero_add]
        rfl
      rw [sameTail] at boundA
      rw [cons_lt_cons_iff, ih sameTail tailA tailB, value, value, sameTail, radix_lt_iff boundA boundB]
      have less : x < y ↔ x.toNat - 48 < y.toNat - 48 := by
        have order : x < y ↔ x.toNat < y.toNat := UInt32.lt_iff_toNat_lt
        rw [order]
        omega
      have equal : x = y ↔ x.toNat - 48 = y.toNat - 48 := by
        rw [← Char.toNat_inj]
        omega
      rw [less, equal]

theorem toString_injective {n m : ℕ} (same : toString n = toString m) : n = m := by
  have digits := congrArg String.toList same
  rw [toString_eq_repr, toString_eq_repr, toList_repr, toList_repr] at digits
  have values := congrArg (Nat.ofDigitChars 10 · 0) digits
  simpa using values

/-- What follows as many elements as the other list has does not matter. -/
theorem append_lt_iff {α : Type*} [LT α] {a b last : List α} (same : a.length = b.length) : a ++ last < b ↔ a < b := by
  induction a generalizing b with
  | nil =>
    obtain rfl := length_eq_zero_iff.mp same.symm
    simp
  | cons x a ih =>
    cases b with
    | nil => cases same
    | cons y b => rw [cons_append, cons_lt_cons_iff, cons_lt_cons_iff, ih (Nat.succ.inj same)]

/-- When the text of a number comes before that of one that is not greater. -/
theorem toString_lt_iff {n least : ℕ} (le : least ≤ n) :
    toString n < toString least ↔ leadingDigits (digitCount least) n < least := by
  have more := digitCount_mono le
  have some : 0 < digitCount least := length_toDigits_pos
  obtain ⟨last, digits, length⟩ := toDigits_append n (digitCount n - digitCount least) (by omega)
  have same : (Nat.toDigits 10 (leadingDigits (digitCount least) n)).length = (Nat.toDigits 10 least).length := by
    have total := congrArg List.length digits
    rw [length_append, length] at total
    change digitCount n = _ at total
    change (Nat.toDigits 10 (n / 10 ^ (digitCount n - digitCount least))).length = digitCount least
    omega
  have allDigits : ∀ m, ∀ c ∈ Nat.toDigits 10 m, c.isDigit := fun m c member =>
    isDigit_of_mem_toDigits (by decide) (by decide) member
  rw [String.lt_iff, toString_eq_repr, toString_eq_repr, toList_repr, toList_repr, digits]
  change Nat.toDigits 10 (leadingDigits (digitCount least) n) ++ last < _ ↔ _
  rw [append_lt_iff same, digits_lt_iff same (allDigits _) (allDigits _), ofDigitChars_ten_toDigits,
    ofDigitChars_ten_toDigits]

/-! ## Texts with separators -/

section Separated

variable {α : Type*} {sep : α} {a b r s : List α}

theorem eq_of_separated (outA : sep ∉ a) (outB : sep ∉ b) (same : a ++ sep :: r = b ++ sep :: s) : a = b ∧ r = s := by
  induction a generalizing b with
  | nil =>
    cases b with
    | nil => exact ⟨rfl, (List.cons.inj same).2⟩
    | cons x b => exact absurd ((List.cons.inj same).1 ▸ mem_cons_self) outB
  | cons y a ih =>
    cases b with
    | nil => exact absurd ((List.cons.inj same).1 ▸ mem_cons_self) outA
    | cons x b =>
      obtain ⟨here, rest⟩ := List.cons.inj same
      obtain ⟨sameRest, tail⟩ := ih (fun m => outA (mem_cons_of_mem _ m))
        (fun m => outB (mem_cons_of_mem _ m)) rest
      exact ⟨by rw [here, sameRest], tail⟩

theorem separated_cases (outA : sep ∉ a) (same : a ++ sep :: r = b ++ sep :: s) :
    b = a ∧ r = s ∨ ∃ more, b = a ++ sep :: more ∧ r = more ++ sep :: s := by
  induction a generalizing b with
  | nil =>
    cases b with
    | nil => exact .inl ⟨rfl, (List.cons.inj same).2⟩
    | cons x b =>
      obtain ⟨rfl, rest⟩ := List.cons.inj same
      exact .inr ⟨b, rfl, rest⟩
  | cons y a ih =>
    cases b with
    | nil => exact absurd ((List.cons.inj same).1 ▸ mem_cons_self) outA
    | cons x b =>
      obtain ⟨rfl, rest⟩ := List.cons.inj same
      rcases ih (fun m => outA (mem_cons_of_mem _ m)) rest with ⟨rfl, tail⟩ | ⟨more, rfl, tail⟩
      · exact .inl ⟨rfl, tail⟩
      · exact .inr ⟨more, rfl, tail⟩

end Separated

theorem notMem_toString {c : Char} (notDigit : c.isDigit = false) (n : ℕ) : c ∉ (toString n).toList := by
  intro member
  rw [toString_eq_repr, toList_repr] at member
  exact Bool.false_ne_true (notDigit.symm.trans (isDigit_of_mem_toDigits (by decide) (by decide) member))

/-- Counting on from a base, the first name that is not taken. -/
def freshName (base : String) (taken : List String) : String :=
  let candidates := base :: (List.range taken.length).map fun counter => base ++ toString (counter + 1)
  (candidates.find? (· ∉ taken)).getD base

theorem freshName_spec (base : String) (taken : List String) : freshName base taken ∉ taken ∧
    (freshName base taken = base ∨ base ∈ taken ∧ ∃ counter : ℕ, freshName base taken = base ++ toString counter) := by
  have injective : Function.Injective fun counter : ℕ => base ++ toString (counter + 1) := fun n m same => by
    have text := congrArg String.toList same
    rw [String.toList_append, String.toList_append] at text
    exact Nat.succ.inj (toString_injective (String.toList_injective (append_cancel_left text)))
  have distinct : (base :: (List.range taken.length).map fun counter => base ++ toString (counter + 1)).Nodup := by
    refine nodup_cons.mpr ⟨fun listed => ?_, Nodup.map injective nodup_range⟩
    obtain ⟨counter, _, same⟩ := List.mem_map.mp listed
    have length := congrArg String.length same
    have digits : 0 < (Nat.toDigits 10 (counter + 1)).length := length_toDigits_pos
    rw [String.length_append, toString_eq_repr, ← String.length_toList (s := Nat.repr _), toList_repr] at length
    omega
  cases found : (base :: (List.range taken.length).map fun counter => base ++ toString (counter + 1)).find? (· ∉ taken) with
  | none =>
    have all : ∀ name ∈ base :: (List.range taken.length).map fun counter => base ++ toString (counter + 1), name ∈ taken :=
      fun name listed => by simpa using find?_eq_none.mp found name listed
    have fits := (subperm_of_subset distinct all).length_le
    simp at fits
  | some name =>
    have free : name ∉ taken := by simpa using find?_some found
    rw [freshName, found]
    refine ⟨free, ?_⟩
    by_cases used : base ∈ taken
    · refine .inr ⟨used, ?_⟩
      rcases mem_cons.mp (mem_of_find?_eq_some found) with rfl | later
      · exact absurd used free
      · obtain ⟨counter, _, same⟩ := List.mem_map.mp later
        exact ⟨counter + 1, same.symm⟩
    · rw [find?_cons_of_pos (by simpa using used)] at found
      exact .inl (Option.some.inj found).symm

end N8n.DecimalOrder
