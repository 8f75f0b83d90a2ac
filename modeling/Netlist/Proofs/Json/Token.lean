/-
Reading tokens back from the text that writes them. A string ends at its own closing quote, because
every quote in it is escaped; a number or a word ends where something follows that can be part of
neither.
-/
import Netlist.Json.Print
import Netlist.Json.Token

namespace Netlist

open Text

/-! ## Strings -/

/-- An item that a string can hold when it is written: a surrogate is one, and no byte is stray. -/
def Item.IsWritten : Item → Prop
  | char _ => True
  | surrogate code => isHigh code ∨ isLow code
  | stray => False

theorem Item.isWritten_of_mem_ofText {text : String} {i : Item} (h : i ∈ Item.ofText text) :
    i.IsWritten := by
  obtain ⟨c, -, rfl⟩ := List.mem_map.1 h
  trivial

theorem hexDigit?_digitChar : ∀ d < 16, hexDigit? d.digitChar = some d := by decide

/-- Four hexadecimal digits hold a code of 16 bits. -/
theorem hexCode?_digits {code : Nat} (h : code < 0x10000) :
    hexCode? (code / 4096 % 16).digitChar (code / 256 % 16).digitChar (code / 16 % 16).digitChar
      (code % 16).digitChar = some code := by
  have hd (n : Nat) : hexDigit? (n % 16).digitChar = some (n % 16) :=
    hexDigit?_digitChar _ (Nat.mod_lt _ (by decide))
  simp only [hexCode?, hd, Option.bind_eq_bind, Option.bind_some, Option.pure_def]
  exact congrArg some (by omega)

namespace Item

variable {done : List Item} {rest : List Symbol}

theorem scan_escapeCode {code : Nat} (h : code < 0x10000) :
    scan done ((escapeCode code).map some ++ rest) = scan (ofCode code :: done) rest := by
  simp only [escapeCode, List.map_cons, List.map_nil, List.cons_append, List.nil_append]
  rw [scan, hexCode?_digits h]

theorem scan_escaped {letter c : Char} (hletter : letter ≠ 'u') (h : escaped? letter = some c) :
    scan done (some '\\' :: some letter :: rest) = scan (char c :: done) rest := by
  rw [scan, h]
  intros
  contradiction

theorem scan_plain {c : Char} (hquote : c ≠ '"') (hslash : c ≠ '\\') (h : isControl c = false) :
    scan done (some c :: rest) = scan (char c :: done) rest := by
  rw [scan, h]
  · rfl
  · exact hquote
  all_goals
    intros
    contradiction

/-- A character is read back from its written form, whatever follows. -/
theorem scan_escapeChar (c : Char) :
    scan done ((escapeChar c).map some ++ rest) = scan (char c :: done) rest := by
  unfold escapeChar
  iterate 7
    split
    case isTrue h => subst h; exact scan_escaped (by decide) rfl
  split
  case isTrue h =>
    have hcode : ofCode c.toNat = char c := by
      simp [ofCode, isHigh, isLow, show ¬ 0xd800 ≤ c.toNat by omega,
        show ¬ 0xdc00 ≤ c.toNat by omega]
    rw [scan_escapeCode (by omega), hcode]
  case isFalse h => exact scan_plain ‹¬ c = '"'› ‹¬ c = '\\'› (decide_eq_false h)

theorem scan_print {i : Item} (h : i.IsWritten) :
    scan done (i.print.map some ++ rest) = scan (i :: done) rest := by
  cases i with
  | char c => exact scan_escapeChar c
  | surrogate code =>
    have hcode : isHigh code || isLow code := Bool.or_eq_true_iff.2 h
    have hlt : code < 0x10000 := by
      simp only [isHigh, isLow, Bool.or_eq_true, Bool.and_eq_true, decide_eq_true_eq] at hcode
      omega
    rw [print, scan_escapeCode hlt, ofCode, if_pos hcode]
  | stray => exact h.elim

/-- A string is read back up to its closing quote. -/
theorem scan_flatMap_print : ∀ {s done : List Item}, (∀ i ∈ s, i.IsWritten) →
    scan done ((s.flatMap print).map some ++ some '"' :: rest) = some (done.reverse ++ s, rest)
  | [], done, _ => by simp [scan]
  | i :: s, done, h => by
    rw [List.flatMap_cons, List.map_append, List.append_assoc, scan_print (h i (List.mem_cons_self ..)),
      scan_flatMap_print fun j hj => h j (List.mem_cons_of_mem _ hj)]
    simp

end Item

/-! ## Numbers -/

namespace Numeral

/-- A numeral with digits before the point, behind the point if there is one and in the exponent if
there is one, and without leading zeros. -/
structure IsWritten (n : Numeral) : Prop where
  isWhole : isWhole n.whole = true
  whole : n.whole.all Char.isDigit = true
  fraction : ∀ digits, n.fraction = some digits → digits ≠ [] ∧ digits.all Char.isDigit = true
  exponent : ∀ e, n.exponent = some e → e.digits ≠ [] ∧ e.digits.all Char.isDigit = true

/-- The digits at the front of a text end where no digit follows. -/
theorem span_digits {digits : List Char} (rest : List Char) (h : digits.all Char.isDigit = true)
    (hrest : ∀ c ∈ rest.head?, c.isDigit = false) :
    (digits ++ rest).takeWhile Char.isDigit = digits ∧
      (digits ++ rest).dropWhile Char.isDigit = rest := by
  rw [List.all_eq_true] at h
  rw [List.takeWhile_append_of_pos h, List.dropWhile_append_of_pos h]
  cases rest with
  | nil => exact ⟨List.append_nil _, rfl⟩
  | cons c rest =>
    have hc := hrest c rfl
    exact ⟨by simp [hc], by simp [hc]⟩

theorem ne_minus_of_isDigit {c : Char} (h : c.isDigit = true) : c ≠ '-' ∧ c ≠ '+' := by
  constructor <;>
  · rintro rfl
    exact absurd h (by decide)

theorem exponentOf?_print {e : Exponent} (hne : e.digits ≠ [])
    (hdigits : e.digits.all Char.isDigit = true) :
    exponentOf? ((if e.negative then ['-'] else []) ++ e.digits) = some e := by
  obtain ⟨negative, digits⟩ := e
  cases digits with
  | nil => exact absurd rfl hne
  | cons d digits =>
    have hd : d ≠ '-' ∧ d ≠ '+' :=
      ne_minus_of_isDigit (List.all_eq_true.1 hdigits d (List.mem_cons_self ..))
    cases negative <;> simp_all [exponentOf?]

/-- The point and the digits behind it as they are written, nothing if there is no point. -/
def printFraction (n : Numeral) : List Char :=
  match n.fraction with
  | none => []
  | some digits => '.' :: digits

/-- The exponent as it is written, nothing if there is none. -/
def printExponent (n : Numeral) : List Char :=
  match n.exponent with
  | none => []
  | some e => e.print

theorem print_eq (n : Numeral) :
    n.print = (if n.negative then ['-'] else []) ++ (n.whole ++ (n.printFraction ++ n.printExponent)) := by
  simp only [print, List.append_assoc]
  rfl

variable {n : Numeral}

theorem head?_printExponent {c : Char} (h : c ∈ n.printExponent.head?) : c = 'e' := by
  unfold printExponent at h
  cases hexp : n.exponent with
  | none => rw [hexp] at h; cases h
  | some e => rw [hexp] at h; exact (Option.some.inj h).symm

theorem withExponent?_print (h : n.IsWritten) :
    withExponent? { n with exponent := none } n.printExponent = some n := by
  obtain ⟨negative, whole, fraction, exponent⟩ := n
  cases exponent with
  | none => rfl
  | some e =>
    obtain ⟨hne, hdigits⟩ := h.exponent e rfl
    simp only [printExponent, Exponent.print, withExponent?, List.cons_append,
      exponentOf?_print hne hdigits]
    rfl

theorem withFraction?_print (h : n.IsWritten) :
    withFraction? ⟨n.negative, n.whole, none, none⟩ (n.printFraction ++ n.printExponent) =
      some n := by
  have hexp := withExponent?_print h
  cases hfraction : n.fraction with
  | none =>
    rw [printFraction, hfraction, List.nil_append, withFraction?, ← hfraction]
    · exact hexp
    · intro rest hrest
      exact absurd (head?_printExponent (by rw [hrest]; rfl)) (by decide)
  | some digits =>
    obtain ⟨hne, hdigits⟩ := h.fraction digits hfraction
    have hspan := span_digits n.printExponent hdigits fun c hc => by
      rw [head?_printExponent hc]
      rfl
    rw [printFraction, hfraction, List.cons_append, withFraction?, hspan.1, hspan.2,
      if_neg (by simpa using hne), ← hfraction]
    exact hexp

theorem head?_printFraction {c : Char} (h : c ∈ (n.printFraction ++ n.printExponent).head?) :
    c = '.' ∨ c = 'e' := by
  cases hfraction : n.fraction with
  | none =>
    rw [printFraction, hfraction] at h
    exact .inr (head?_printExponent h)
  | some digits =>
    rw [printFraction, hfraction] at h
    exact .inl (Option.some.inj h).symm

theorem IsWritten.exists_digit (h : n.IsWritten) :
    ∃ d digits, n.whole = d :: digits ∧ d.isDigit = true := by
  cases hwhole : n.whole with
  | nil => exact absurd (hwhole ▸ h.isWhole) (by decide)
  | cons d digits =>
    exact ⟨d, digits, rfl, List.all_eq_true.1 h.whole d (hwhole ▸ List.mem_cons_self ..)⟩

/-- A numeral is read back from its written form. -/
theorem ofChars?_print (h : n.IsWritten) : ofChars? n.print = some n := by
  have hspan := span_digits (n.printFraction ++ n.printExponent) h.whole fun c hc => by
    rcases head?_printFraction hc with rfl | rfl <;> rfl
  have hread (negative : Bool) : n.negative = negative →
      (if isWhole n.whole then
        withFraction? ⟨negative, n.whole, none, none⟩ (n.printFraction ++ n.printExponent)
      else none) = some n := by
    rintro rfl
    rw [if_pos h.isWhole, withFraction?_print h]
  rw [print_eq]
  cases hnegative : n.negative with
  | true =>
    rw [if_pos rfl, List.singleton_append, ofChars?]
    simp only [hspan, hread true hnegative]
  | false =>
    -- the first digit is not taken for a sign
    obtain ⟨d, digits, hwhole, hd⟩ := h.exists_digit
    rw [if_neg Bool.false_ne_true, List.nil_append, ofChars?]
    · simp only [hspan, hread false hnegative]
    · intro rest hrest
      rw [hwhole] at hrest
      exact (ne_minus_of_isDigit hd).1 (List.cons.inj hrest).1

theorem isPart_of_isDigit {c : Char} (h : c.isDigit = true) : isPart c = true := by
  simp [isPart, h]

/-- All characters of a written numeral occur in numbers. -/
theorem IsWritten.isPart_of_mem (h : n.IsWritten) {c : Char} (hc : c ∈ n.print) :
    isPart c = true := by
  rw [print_eq, List.mem_append, List.mem_append, List.mem_append] at hc
  rcases hc with hc | hc | hc | hc
  · cases hnegative : n.negative <;> simp_all [isPart]
  · exact isPart_of_isDigit (List.all_eq_true.1 h.whole c hc)
  · cases hfraction : n.fraction with
    | none => simp [printFraction, hfraction] at hc
    | some digits =>
      rw [printFraction, hfraction] at hc
      rcases List.mem_cons.1 hc with rfl | hc
      · rfl
      · exact isPart_of_isDigit (List.all_eq_true.1 (h.fraction digits hfraction).2 c hc)
  · cases hexponent : n.exponent with
    | none => simp [printExponent, hexponent] at hc
    | some e =>
      rw [printExponent, hexponent] at hc
      rcases List.mem_cons.1 hc with rfl | hc
      · rfl
      rcases List.mem_append.1 hc with hc | hc
      · cases hnegative : e.negative <;> simp_all [isPart]
      · exact isPart_of_isDigit (List.all_eq_true.1 (h.exponent e hexponent).2 c hc)

/-- A written numeral begins with its sign or with a digit. -/
theorem IsWritten.exists_cons (h : n.IsWritten) :
    ∃ c rest, n.print = c :: rest ∧ (c = '-' ∨ c.isDigit = true) := by
  rw [print_eq]
  cases n.negative with
  | true => exact ⟨'-', _, rfl, .inl rfl⟩
  | false =>
    obtain ⟨d, digits, hwhole, hd⟩ := h.exists_digit
    rw [hwhole]
    exact ⟨d, _, rfl, .inr hd⟩

/-! ## Integers -/

/-- The digits of a positive number begin with another digit than zero. -/
theorem exists_toDigits_cons (k : Nat) (hk : 0 < k) :
    ∃ d digits, Nat.toDigits 10 k = d :: digits ∧ d ≠ '0' := by
  induction k using Nat.strongRecOn with
  | ind k ih =>
    by_cases hlt : k < 10
    · refine ⟨k.digitChar, [], Nat.toDigits_of_lt_base hlt, ?_⟩
      have hdigits : ∀ d < 10, 0 < d → d.digitChar ≠ '0' := by decide
      exact hdigits k hlt hk
    · obtain ⟨d, digits, hdigits, hd⟩ := ih (k / 10) (by omega) (by omega)
      refine ⟨d, digits ++ [(k % 10).digitChar], ?_, hd⟩
      rw [Nat.toDigits_of_base_le (by decide) (by omega), hdigits, List.cons_append]

theorem isWhole_toDigits (k : Nat) : isWhole (Nat.toDigits 10 k) = true := by
  cases k with
  | zero => rfl
  | succ k =>
    obtain ⟨d, digits, hdigits, hd⟩ := exists_toDigits_cons (k + 1) (Nat.succ_pos k)
    rw [hdigits]
    cases digits <;> simp [isWhole, hd]

theorem isWritten_of_digits (negative : Bool) (k : Nat) :
    IsWritten ⟨negative, Nat.toDigits 10 k, none, none⟩ where
  isWhole := isWhole_toDigits k
  whole := List.all_eq_true.2 fun c hc => Nat.isDigit_of_mem_toDigits (by decide) (by decide) hc
  fraction := nofun
  exponent := nofun

end Numeral

/-! ## Texts -/

namespace Token

variable {p : Char → Bool} {cs : List Char} {rest : List Symbol}

/-- No character with the property stands at the front of what follows. -/
def EndsRun (p : Char → Bool) (rest : List Symbol) : Prop :=
  ∀ c, rest.head? = some (some c) → p c = false

theorem EndsRun.stops (h : EndsRun p rest) :
    rest.takeWhile (Option.any p) = [] ∧ rest.dropWhile (Option.any p) = rest := by
  cases rest with
  | nil => exact ⟨rfl, rfl⟩
  | cons s rest =>
    have hs : Option.any p s = false := by
      cases s with
      | none => rfl
      | some c => exact h c rfl
    simp [hs]

theorem run_append (hcs : ∀ c ∈ cs, p c = true) (hrest : EndsRun p rest) :
    run p (cs.map some ++ rest) = cs ∧ afterRun p (cs.map some ++ rest) = rest := by
  have hall : ∀ s ∈ cs.map some, Option.any p s = true := by
    intro s hs
    obtain ⟨c, hc, rfl⟩ := List.mem_map.1 hs
    exact hcs c hc
  rw [run, afterRun, List.takeWhile_append_of_pos hall, List.dropWhile_append_of_pos hall, hrest.stops.1,
    hrest.stops.2]
  simp

/-- Tokens that are found go behind those that were found before. -/
theorem scan_append (before done : Array Token) (input : List Symbol) :
    scan (before ++ done) input = (scan done input).map (before ++ ·) := by
  fun_induction scan done input
  case case4 hspace hquote _ _ _ _ | case5 hspace hquote _ =>
    rw [scan, if_neg hspace, if_pos hquote]
    split <;> simp_all [Array.push_append]
  all_goals
    rw [scan]
    simp_all [Array.push_append]

theorem ofSymbols?_of_scan {input : List Symbol} {t : Token}
    (h : scan #[] input = scan #[t] rest) :
    ofSymbols? input = (ofSymbols? rest).map (t :: ·) := by
  have happend := scan_append #[t] #[] rest
  rw [Array.append_empty] at happend
  rw [ofSymbols?, h, happend, ofSymbols?]
  cases scan #[] rest <;> simp

theorem ofSymbols?_nil : ofSymbols? [] = some [] := by
  rw [ofSymbols?, scan]
  rfl

theorem ofSymbols?_space {c : Char} (h : isSpace c = true) :
    ofSymbols? (some c :: rest) = ofSymbols? rest := by
  rw [ofSymbols?, scan, if_pos h, ofSymbols?]

theorem ofSymbols?_spaces (h : ∀ c ∈ cs, isSpace c = true) :
    ofSymbols? (cs.map some ++ rest) = ofSymbols? rest := by
  induction cs with
  | nil => rfl
  | cons c cs ih =>
    rw [List.map_cons, List.cons_append, ofSymbols?_space (h c (List.mem_cons_self ..)),
      ih fun d hd => h d (List.mem_cons_of_mem _ hd)]

/-- A mark begins nothing else. -/
theorem ofMark?_only {c : Char} {t : Token} (h : ofMark? c = some t) :
    ¬ isSpace c = true ∧ ¬ (c == '"') = true ∧ ¬ (c == '-' || c.isDigit) = true ∧ ¬ c.isAlpha = true := by
  unfold ofMark? at h
  split at h <;> cases h <;> decide

/-- A mark is a token of its own. -/
theorem ofSymbols?_mark {c : Char} {t : Token} (h : ofMark? c = some t) :
    ofSymbols? (some c :: rest) = (ofSymbols? rest).map (t :: ·) := by
  refine ofSymbols?_of_scan ?_
  obtain ⟨hspace, hquote, hnumber, hword⟩ := ofMark?_only h
  rw [scan, if_neg hspace, if_neg hquote, if_neg hnumber, if_neg hword, h]
  rfl

theorem ofSymbols?_printString {s : List Item} (h : ∀ i ∈ s, i.IsWritten) :
    ofSymbols? ((printString s).map some ++ rest) = (ofSymbols? rest).map (.string s :: ·) := by
  refine ofSymbols?_of_scan ?_
  have hscan : Item.scan [] ((s.flatMap Item.print).map some ++ some '"' :: rest) = some (s, rest) :=
    Item.scan_flatMap_print h
  have htext : (printString s).map some ++ rest =
      some '"' :: ((s.flatMap Item.print).map some ++ some '"' :: rest) := by
    simp [printString]
  rw [htext, scan, if_neg (by decide), if_pos (by decide)]
  split <;> simp_all

/-- A sign or a digit is no white space and no quote. -/
theorem number_only {c : Char} (h : c = '-' ∨ c.isDigit = true) :
    ¬ isSpace c = true ∧ ¬ (c == '"') = true := by
  rcases h with rfl | h
  · decide
  constructor <;> intro hc
  · simp only [isSpace, Bool.or_eq_true, beq_iff_eq] at hc
    rcases hc with ((rfl | rfl) | rfl) | rfl <;> exact absurd h (by decide)
  · rw [beq_iff_eq.1 hc] at h
    exact absurd h (by decide)

theorem ofSymbols?_printNumber {n : Numeral} (h : n.IsWritten) (hrest : EndsRun Numeral.isPart rest) :
    ofSymbols? (n.print.map some ++ rest) = (ofSymbols? rest).map (.number n :: ·) := by
  refine ofSymbols?_of_scan ?_
  obtain ⟨c, cs, hprint, hc⟩ := h.exists_cons
  have hcs : ∀ d ∈ cs, Numeral.isPart d = true := fun d hd =>
    h.isPart_of_mem (hprint ▸ List.mem_cons_of_mem _ hd)
  have hrun := run_append hcs hrest
  have hread : Numeral.ofChars? (c :: cs) = some n := hprint ▸ Numeral.ofChars?_print h
  obtain ⟨hspace, hquote⟩ := number_only hc
  rw [hprint, List.map_cons, List.cons_append, scan, if_neg hspace, if_neg hquote,
    if_pos (by simpa using hc), hrun.1, hrun.2, hread]
  rfl

/-- The words are made of letters, which begin nothing else. -/
theorem ofWord?_only {t : Token} (h : ofWord? cs = some t) :
    ∃ c more, cs = c :: more ∧ (∀ d ∈ more, d.isAlpha = true) ∧ ¬ isSpace c = true ∧
      ¬ (c == '"') = true ∧ ¬ (c == '-' || c.isDigit) = true ∧ c.isAlpha = true := by
  unfold ofWord? at h
  split at h
  case isTrue hcs => exact ⟨_, _, hcs, List.all_eq_true.1 (by decide), by decide⟩
  split at h
  case isTrue hcs => exact ⟨_, _, hcs, List.all_eq_true.1 (by decide), by decide⟩
  split at h
  case isTrue hcs => exact ⟨_, _, hcs, List.all_eq_true.1 (by decide), by decide⟩
  case isFalse => cases h

/-- A word is a token if no letter follows. -/
theorem ofSymbols?_word {t : Token} (h : ofWord? cs = some t) (hrest : EndsRun Char.isAlpha rest) :
    ofSymbols? (cs.map some ++ rest) = (ofSymbols? rest).map (t :: ·) := by
  refine ofSymbols?_of_scan ?_
  obtain ⟨c, more, rfl, hmore, hspace, hquote, hnumber, halpha⟩ := ofWord?_only h
  have hrun := run_append hmore hrest
  rw [List.map_cons, List.cons_append, scan, if_neg hspace, if_neg hquote, if_neg hnumber,
    if_pos halpha, hrun.1, hrun.2, h]
  rfl

end Token

end Netlist
