/-
Decoding the bytes of a text gives the text back. The first byte of a character tells how many bytes
follow it, and the bounds on the second one admit exactly the characters that need as many, the
surrogates apart, which are no characters.
-/
import Mathlib.Data.List.Basic
import Mathlib.Tactic.IntervalCases
import Netlist.Text.Utf8

namespace Netlist.Text.Utf8

/-! ## Bytes -/

theorem toNat_ofNat {n : Nat} (h : n < 256) : (UInt8.ofNat n).toNat = n := by
  rw [UInt8.toNat_ofNat', Nat.mod_eq_of_lt h]

theorem ofNat_eq_iff {n m : Nat} (hn : n < 256) (hm : m < 256) : UInt8.ofNat n = UInt8.ofNat m ↔ n = m := by
  rw [← UInt8.toNat_inj, toNat_ofNat hn, toNat_ofNat hm]

theorem tail?_ofNat {low high n : Nat} (h : n < 64) (hlow : low ≤ n + 128) (hhigh : n + 128 ≤ high) :
    tail? low high (UInt8.ofNat (n + 128)) = some n := by
  rw [tail?, toNat_ofNat (by omega), if_pos ⟨hlow, hhigh⟩]
  exact congrArg some (by omega)

/-- A byte from 128 on is no character of its own. -/
theorem lead?_one_ofNat {n : Nat} (hn : n < 256) (h : 128 ≤ n) (rest : List UInt8) :
    lead? 1 (UInt8.ofNat n :: rest) = none := by
  have hge : ¬ UInt8.ofNat n < 0x80 := by
    rw [UInt8.lt_iff_toNat_lt, toNat_ofNat hn]
    exact Nat.not_lt_of_le h
  simp only [lead?, hge, if_false]

/-- A byte from 224 on begins no sequence of two. -/
theorem lead?_two_ofNat {n : Nat} (hn : n < 256) (h : 224 ≤ n) (rest : List UInt8) :
    lead? 2 (UInt8.ofNat n :: rest) = none := by
  cases rest with
  | nil => rfl
  | cons b rest =>
    rw [lead?, two?, toNat_ofNat hn, if_pos (Or.inr (by omega))]

/-- A byte from 240 on begins no sequence of three. -/
theorem lead?_three_ofNat {n : Nat} (hn : n < 256) (h : 240 ≤ n) (rest : List UInt8) :
    lead? 3 (UInt8.ofNat n :: rest) = none := by
  match rest with
  | [] | [_] => rfl
  | b :: c :: rest =>
    rw [lead?, three?, toNat_ofNat hn, if_pos (Or.inr (by omega))]

/-! ## Characters -/

variable {v : Nat}

theorem two?_ofNat (hlow : 128 ≤ v) (hhigh : v < 2048) :
    two? (UInt8.ofNat (v / 64 % 32 + 192)) (UInt8.ofNat (v % 64 + 128)) = some (Char.ofNat v) := by
  rw [two?, toNat_ofNat (by omega), if_neg (by omega), tail?_ofNat (by omega) (by omega) (by omega)]
  exact congrArg (fun n => some (Char.ofNat n)) (by omega)

theorem three?_ofNat (hlow : 2048 ≤ v) (hhigh : v < 65536) (hv : v < 0xd800 ∨ 0xdfff < v) :
    three? (UInt8.ofNat (v / 4096 % 16 + 224)) (UInt8.ofNat (v / 64 % 64 + 128))
      (UInt8.ofNat (v % 64 + 128)) = some (Char.ofNat v) := by
  have hfirst : UInt8.ofNat (v / 4096 % 16 + 224) = 0xe0 ↔ v / 4096 % 16 + 224 = 0xe0 :=
    ofNat_eq_iff (by omega) (by decide)
  have hlast : UInt8.ofNat (v / 4096 % 16 + 224) = 0xed ↔ v / 4096 % 16 + 224 = 0xed :=
    ofNat_eq_iff (by omega) (by decide)
  simp only [three?, hfirst, hlast]
  rw [toNat_ofNat (by omega), if_neg (by omega),
    tail?_ofNat (by omega) (by split <;> omega) (by split <;> omega),
    tail?_ofNat (by omega) (by omega) (by omega)]
  exact congrArg (fun n => some (Char.ofNat n)) (by omega)

theorem four?_ofNat (hlow : 65536 ≤ v) (hhigh : v < 0x110000) :
    four? (UInt8.ofNat (v / 262144 % 8 + 240)) (UInt8.ofNat (v / 4096 % 64 + 128))
      (UInt8.ofNat (v / 64 % 64 + 128)) (UInt8.ofNat (v % 64 + 128)) = some (Char.ofNat v) := by
  have hfirst : UInt8.ofNat (v / 262144 % 8 + 240) = 0xf0 ↔ v / 262144 % 8 + 240 = 0xf0 :=
    ofNat_eq_iff (by omega) (by decide)
  have hlast : UInt8.ofNat (v / 262144 % 8 + 240) = 0xf4 ↔ v / 262144 % 8 + 240 = 0xf4 :=
    ofNat_eq_iff (by omega) (by decide)
  simp only [four?, hfirst, hlast]
  rw [toNat_ofNat (by omega), if_neg (by omega),
    tail?_ofNat (by omega) (by split <;> omega) (by split <;> omega),
    tail?_ofNat (by omega) (by omega) (by omega), tail?_ofNat (by omega) (by omega) (by omega)]
  exact congrArg (fun n => some (Char.ofNat n)) (by omega)

/-- The first length at which bytes are a sequence decides. -/
theorem first_eq {bytes : List UInt8} {c : Char} {n : Nat} (hn : n ∈ [1, 2, 3, 4])
    (hshorter : ∀ m < n, m ∈ [1, 2, 3, 4] → lead? m bytes = none) (h : lead? n bytes = some c) :
    first bytes = (some c, n - 1) := by
  have hfound : [1, 2, 3, 4].findSome? (fun m => (lead? m bytes).map fun c => (c, m - 1)) =
      some (c, n - 1) := by
    simp only [List.mem_cons, List.not_mem_nil, or_false] at hn
    rcases hn with rfl | rfl | rfl | rfl <;> simp [h, hshorter]
  rw [first, hfound]

/-- The bytes of a character are read as this character, whatever follows them. -/
theorem first_utf8EncodeChar (c : Char) (rest : List UInt8) :
    first (String.utf8EncodeChar c ++ rest) = (some c, (String.utf8EncodeChar c).length - 1) := by
  have hvalid : c.val.toNat < 0xd800 ∨ 0xdfff < c.val.toNat ∧ c.val.toNat < 0x110000 := c.valid
  have hc : Char.ofNat c.val.toNat = c := Char.ofNat_toNat c
  unfold String.utf8EncodeChar
  generalize c.val.toNat = v at hvalid hc
  subst hc
  simp only
  -- one case for each width: nothing shorter is read, and what is read is the character
  split
  · next h =>
    have hlt : UInt8.ofNat v < 0x80 := by
      rw [UInt8.lt_iff_toNat_lt, toNat_ofNat (by omega)]
      exact Nat.lt_succ_of_le h
    refine first_eq (n := 1) (by decide) (fun m hm hmem => ?_) ?_
    · interval_cases m
      simp at hmem
    · rw [List.singleton_append, lead?, if_pos hlt, toNat_ofNat (by omega)]
  split
  · refine first_eq (n := 2) (by decide) (fun m hm hmem => ?_) (two?_ofNat (by omega) (by omega))
    interval_cases m
    · simp at hmem
    · exact lead?_one_ofNat (by omega) (by omega) _
  split
  · refine first_eq (n := 3) (by decide) (fun m hm hmem => ?_)
      (three?_ofNat (by omega) (by omega) (by omega))
    interval_cases m
    · simp at hmem
    · exact lead?_one_ofNat (by omega) (by omega) _
    · exact lead?_two_ofNat (by omega) (by omega) _
  · refine first_eq (n := 4) (by decide) (fun m hm hmem => ?_) (four?_ofNat (by omega) (by omega))
    interval_cases m
    · simp at hmem
    · exact lead?_one_ofNat (by omega) (by omega) _
    · exact lead?_two_ofNat (by omega) (by omega) _
    · exact lead?_three_ofNat (by omega) (by omega) _

/-! ## Texts -/

theorem decodeFrom_append (rest : List UInt8) :
    ∀ skipped : List UInt8, decodeFrom skipped.length (skipped ++ rest) = decodeFrom 0 rest
  | [] => rfl
  | _ :: skipped => decodeFrom_append rest skipped

theorem decode_utf8EncodeChar (c : Char) (rest : List UInt8) :
    decode (String.utf8EncodeChar c ++ rest) = some c :: decode rest := by
  have hfirst := first_utf8EncodeChar c rest
  cases hbytes : String.utf8EncodeChar c with
  | nil => exact absurd hbytes String.utf8EncodeChar_ne_nil
  | cons b more =>
    rw [hbytes, List.cons_append] at hfirst
    rw [decode, List.cons_append, decodeFrom, hfirst]
    exact congrArg _ (decodeFrom_append rest more)

/-- The bytes of a text are read as its characters. -/
theorem decode_toUTF8 (text : String) : decode text.toUTF8.data.toList = symbols text := by
  have hbytes : text.toUTF8.data.toList = text.toList.flatMap String.utf8EncodeChar := by
    rw [String.toUTF8, ← String.utf8Encode_toList, List.utf8Encode, List.toList_data_toByteArray]
  rw [hbytes, symbols]
  induction text.toList with
  | nil => rfl
  | cons c rest ih => rw [List.flatMap_cons, decode_utf8EncodeChar, ih, List.map_cons]

end Netlist.Text.Utf8
