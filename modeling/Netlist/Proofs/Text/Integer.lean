/-
Numbers between blanks. Trimming leaves what stands between the runs of blanks at both ends. A
natural number is read from digits, with or without a plus sign in front: leading zeros do not
count, and the width of the number bounds its value only.
-/
import Mathlib.Algebra.Order.Ring.Nat
import Mathlib.Data.List.TakeWhile
import Mathlib.Tactic.ByContra
import Netlist.Text.Basic

namespace Netlist.Text

/-! ## Trimming -/

/-- A text of blanks only. -/
def Blank (cs : List Char) : Prop := ∀ c ∈ cs, isBlank c = true

theorem blank_takeWhile (cs : List Char) : Blank (cs.takeWhile isBlank) :=
  fun _ hc => List.all_eq_true.1 List.all_takeWhile _ hc

/-- A word between blanks. -/
def Padded (word cs : List Char) : Prop := ∃ front back, cs = front ++ word ++ back ∧ Blank front ∧ Blank back

/-- What trimming takes away are blanks at both ends. -/
theorem padded_trim (cs : List Char) : Padded (trim cs) cs := by
  obtain ⟨rest, hrest⟩ : ∃ rest, cs.dropWhile isBlank = rest := ⟨_, rfl⟩
  refine ⟨cs.takeWhile isBlank, (rest.reverse.takeWhile isBlank).reverse, ?_, blank_takeWhile cs, ?_⟩
  · have hback : (rest.reverse.dropWhile isBlank).reverse ++ (rest.reverse.takeWhile isBlank).reverse = rest := by
      rw [← List.reverse_append, List.takeWhile_append_dropWhile, List.reverse_reverse]
    rw [trim, hrest, List.append_assoc, hback, ← hrest, List.takeWhile_append_dropWhile]
  · intro c hc
    exact blank_takeWhile _ c (List.mem_reverse.1 hc)

theorem dropWhile_of_notBlank {cs : List Char} (h : ∀ c ∈ cs, isBlank c = false) :
    cs.dropWhile isBlank = cs := by
  cases cs with
  | nil => rfl
  | cons c cs => exact List.dropWhile_cons_of_neg (by simp [h c (List.mem_cons_self ..)])

/-- Blanks around a word do not count, if there are none in it. -/
theorem trim_eq_iff {word cs : List Char} (hword : ∀ c ∈ word, isBlank c = false) :
    trim cs = word ↔ Padded word cs := by
  constructor
  · rintro rfl
    exact padded_trim cs
  · rintro ⟨front, back, rfl, hfront, hback⟩
    have hends : ∀ c ∈ word.reverse, isBlank c = false := fun c hc => hword c (List.mem_reverse.1 hc)
    have hblank : ∀ c ∈ back.reverse, isBlank c = true := fun c hc => hback c (List.mem_reverse.1 hc)
    rw [trim, List.append_assoc, List.dropWhile_append_of_pos hfront]
    cases word with
    | nil =>
      rw [List.nil_append, List.dropWhile_eq_nil_iff.2 hback]
      rfl
    | cons c word =>
      have hhead : ¬ isBlank c = true := by simp [hword c (List.mem_cons_self ..)]
      rw [List.cons_append, List.dropWhile_cons_of_neg hhead, ← List.cons_append, List.reverse_append,
        List.dropWhile_append_of_pos hblank, dropWhile_of_notBlank hends, List.reverse_reverse]

theorem not_isBlank_of_isDigit {c : Char} (h : c.isDigit = true) : isBlank c = false := by
  simp only [Char.isDigit, Bool.and_eq_true, decide_eq_true_eq, UInt32.le_iff_toNat_le, ge_iff_le] at h
  by_contra hblank
  simp [isBlank, Char.le_def, Char.ext_iff, UInt32.le_iff_toNat_le, ← UInt32.toNat_inj] at h hblank
  omega

/-! ## Natural numbers -/

theorem le_ofDigitChars (digits : List Char) (value : Nat) :
    value ≤ Nat.ofDigitChars 10 digits value := by
  induction digits generalizing value with
  | nil => exact Nat.le_refl _
  | cons d digits ih =>
    have h := ih (10 * value + (d.toNat - '0'.toNat))
    rw [Nat.ofDigitChars_cons]
    omega

/-- Digits are read up to the largest value, behind a number that does not exceed it. -/
theorem readDigits_eq_ok {most n : Nat} {beyond : IntegerFault} : ∀ {cs : List Char} {value : Nat}, value ≤ most →
    (readDigits most beyond value cs = .ok n ↔
      (∀ c ∈ cs, c.isDigit = true) ∧ Nat.ofDigitChars 10 cs value = n ∧ n ≤ most)
  | [], value, hvalue => by
    rw [readDigits, Except.ok.injEq, Nat.ofDigitChars_nil]
    constructor
    · rintro rfl
      exact ⟨nofun, rfl, hvalue⟩
    · exact fun h => h.2.1
  | c :: cs, value, hvalue => by
    rw [readDigits, Nat.ofDigitChars_cons, List.forall_mem_cons, Nat.mul_comm 10 value]
    by_cases hc : c.isDigit = true
    · rw [if_pos hc]
      by_cases hnext : value * 10 + (c.toNat - '0'.toNat) ≤ most
      · simp only [if_pos hnext, readDigits_eq_ok hnext, hc, true_and]
      · -- a number only grows with the digits that follow
        have hle := le_ofDigitChars cs (value * 10 + (c.toNat - '0'.toNat))
        rw [if_neg hnext]
        constructor
        · exact nofun
        · rintro ⟨-, rfl, hmost⟩
          omega
    · rw [if_neg hc]
      exact ⟨nofun, fun h => absurd h.1.1 hc⟩

/-- The digits of a natural number, with or without a plus sign in front. -/
def IsUnsigned (cs : List Char) (n : Nat) : Prop :=
  ∃ sign digits, cs = sign ++ digits ∧ (sign = [] ∨ sign = ['+']) ∧ digits ≠ [] ∧
    (∀ c ∈ digits, c.isDigit = true) ∧ Nat.ofDigitChars 10 digits 0 = n

theorem isUnsigned_digits {cs : List Char} {n : Nat} (hplus : cs.head? ≠ some '+') :
    IsUnsigned cs n ↔ cs ≠ [] ∧ (∀ c ∈ cs, c.isDigit = true) ∧ Nat.ofDigitChars 10 cs 0 = n := by
  constructor
  · rintro ⟨sign, digits, rfl, rfl | rfl, hdigits⟩
    · exact hdigits
    · exact absurd rfl hplus
  · exact fun h => ⟨[], cs, rfl, .inl rfl, h⟩

theorem isUnsigned_plus {cs : List Char} {n : Nat} :
    IsUnsigned ('+' :: cs) n ↔ cs ≠ [] ∧ (∀ c ∈ cs, c.isDigit = true) ∧ Nat.ofDigitChars 10 cs 0 = n := by
  constructor
  · rintro ⟨sign, digits, heq, rfl | rfl, hne, hdigits, hn⟩
    · obtain rfl : '+' :: cs = digits := heq
      exact absurd (hdigits '+' (List.mem_cons_self ..)) (by decide)
    · obtain rfl : cs = digits := by simpa using heq
      exact ⟨hne, hdigits, hn⟩
  · exact fun h => ⟨['+'], cs, rfl, .inr rfl, h⟩

/-- Natural numbers of a width are read from the texts of numbers below that width, and from no
others. -/
theorem readUnsigned_eq_ok {width n : Nat} {cs : List Char} :
    readUnsigned width cs = .ok n ↔ IsUnsigned cs n ∧ n < 2 ^ width := by
  have hpos : 0 < 2 ^ width := Nat.pow_pos (by decide)
  have hmost : n ≤ (1 <<< width) - 1 ↔ n < 2 ^ width := by
    rw [Nat.shiftLeft_eq, Nat.one_mul]
    omega
  have hread (cs : List Char) : readDigits ((1 <<< width) - 1) .tooLarge 0 cs = .ok n ↔
      ((∀ c ∈ cs, c.isDigit = true) ∧ Nat.ofDigitChars 10 cs 0 = n) ∧ n < 2 ^ width := by
    rw [readDigits_eq_ok (Nat.zero_le _), hmost, and_assoc]
  unfold readUnsigned
  split
  · rw [isUnsigned_digits (by simp)]
    exact ⟨nofun, fun h => absurd rfl h.1.1⟩
  · next c rest =>
    rw [hread, isUnsigned_plus]
    simp
  · next hne hplus =>
    -- a plus sign that stands alone is read as a digit, and is none
    rw [hread]
    by_cases hhead : cs.head? = some '+'
    · obtain ⟨rest, rfl⟩ := List.head?_eq_some_iff.1 hhead
      obtain rfl : rest = [] := by
        cases rest with
        | nil => rfl
        | cons c rest => exact absurd rfl (hplus c rest)
      rw [isUnsigned_plus]
      constructor
      · exact fun h => absurd (h.1.1 '+' (List.mem_cons_self ..)) (by decide)
      · exact fun h => absurd rfl h.1.1
    · rw [isUnsigned_digits hhead]
      have hne : cs ≠ [] := fun h => hne h
      simp [hne]

end Netlist.Text
