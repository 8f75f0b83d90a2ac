/-
Which texts are forced states: a number of 32 bits and one of the digits 0 and 1, with an equals
sign between them and any blanks around both.
-/
import Netlist.Command.Line
import Netlist.Proofs.Text.Integer

namespace Netlist.Drive

open Text

/-- The digit of a state. -/
def stateDigit (state : Bool) : Char := if state then '1' else '0'

/-- The text of a forced state. The number may have a plus sign and leading zeros. -/
def Written (text : List Char) (d : Drive) : Prop :=
  ∃ front number behind, text = front ++ '=' :: behind ∧ Padded number front ∧ IsUnsigned number d.part ∧
    d.part < 2 ^ 32 ∧ Padded [stateDigit d.state] behind

theorem not_isBlank_of_isUnsigned {cs : List Char} {n : Nat} (h : IsUnsigned cs n) :
    ∀ c ∈ cs, isBlank c = false := by
  obtain ⟨sign, digits, rfl, hsign, -, hdigits, -⟩ := h
  intro c hc
  rcases List.mem_append.1 hc with hc | hc
  · rcases hsign with rfl | rfl
    · cases hc
    · rw [List.mem_singleton.1 hc]
      decide
  · exact not_isBlank_of_isDigit (hdigits c hc)

/-- The first equals sign of a text ends the number in front of it. -/
theorem ne_equals_of_padded {number front : List Char} {n : Nat} (h : Padded number front)
    (hnumber : IsUnsigned number n) : ∀ c ∈ front, (c != '=') = true := by
  obtain ⟨before, behind, rfl, hbefore, hbehind⟩ := h
  obtain ⟨sign, digits, rfl, hsign, -, hdigits, -⟩ := hnumber
  intro c hc
  simp only [List.mem_append] at hc
  refine bne_iff_ne.2 ?_
  rintro rfl
  rcases hc with (hc | hc | hc) | hc
  · exact absurd (hbefore _ hc) (by decide)
  · rcases hsign with rfl | rfl
    · cases hc
    · exact absurd (List.mem_singleton.1 hc) (by decide)
  · exact absurd (hdigits _ hc) (by decide)
  · exact absurd (hbehind _ hc) (by decide)

theorem trim_eq_stateDigit {state : Bool} {cs : List Char} :
    trim cs = [stateDigit state] ↔ Padded [stateDigit state] cs := by
  refine trim_eq_iff fun c hc => ?_
  rw [List.mem_singleton.1 hc]
  cases state <;> decide

theorem written_of_parse {text : String} {d : Drive} (h : parse text = .ok d) : Written text.toList d := by
  unfold parse at h
  extract_lets cs front at h
  split at h
  · cases h
  · next c behind hbehind =>
    obtain rfl : c = '=' := by
      have hhead := List.head?_dropWhile_not (· != '=') cs
      rw [hbehind] at hhead
      simpa using hhead
    have htext : cs = cs.takeWhile (· != '=') ++ '=' :: behind := by
      rw [← hbehind, List.takeWhile_append_dropWhile]
    split at h
    · cases h
    · next part hpart =>
      obtain ⟨hnumber, hlt⟩ := readUnsigned_eq_ok.1 hpart
      refine ⟨front, _, behind, htext, padded_trim front, ?_⟩
      split at h
      · next hstate =>
        cases h
        exact ⟨hnumber, hlt, trim_eq_stateDigit.1 hstate⟩
      · next hstate =>
        cases h
        exact ⟨hnumber, hlt, trim_eq_stateDigit.1 hstate⟩
      · cases h

theorem parse_of_written {text : String} {d : Drive} (h : Written text.toList d) : parse text = .ok d := by
  obtain ⟨front, number, behind, htext, hfront, hnumber, hlt, hbehind⟩ := h
  have hequals := ne_equals_of_padded hfront hnumber
  have htake : text.toList.takeWhile (· != '=') = front := by
    rw [htext, List.takeWhile_append_of_pos hequals]
    simp
  have hdrop : text.toList.dropWhile (· != '=') = '=' :: behind := by
    rw [htext, List.dropWhile_append_of_pos hequals]
    simp
  have hread : readUnsigned 32 (trim front) = .ok d.part := by
    rw [(trim_eq_iff (not_isBlank_of_isUnsigned hnumber)).2 hfront]
    exact readUnsigned_eq_ok.2 ⟨hnumber, hlt⟩
  have hstate := trim_eq_stateDigit.2 hbehind
  obtain ⟨part, state⟩ := d
  simp only [parse, hdrop, htake, hread, hstate]
  cases state <;> rfl

/-- A forced state is read from its texts and from no others. -/
theorem parse_eq_ok_iff (text : String) (d : Drive) : parse text = .ok d ↔ Written text.toList d :=
  ⟨written_of_parse, parse_of_written⟩

end Netlist.Drive
