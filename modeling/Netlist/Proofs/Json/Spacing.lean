/-
White space between tokens. The tokens of a text do not change when white space is put between two of them
or taken away, unless two numbers or words then run together. In a text that writes a value they cannot:
what follows a number or a word there is a comma or the end of an array or an object.
-/
import Mathlib.Data.List.TakeWhile
import Netlist.Proofs.Json.RoundTrip

namespace Netlist

open Text

/-! ## Texts that go on -/

/-- The end of a string is found whatever follows. -/
theorem Item.scan_append {done s : List Item} {input after : List Symbol} (rest : List Symbol)
    (h : scan done input = some (s, after)) : scan done (input ++ rest) = some (s, after ++ rest) := by
  fun_induction scan done input with
  | case2 =>
    cases h
    simp only [List.cons_append, scan]
  | case3 _ _ _ _ _ _ _ hcode ih => simpa only [List.cons_append, scan, hcode] using ih h
  | case5 done e _ _ c hescape ih =>
    have hletter : e ≠ 'u' := by
      rintro rfl
      cases hescape
    rw [List.cons_append, List.cons_append, scan_escaped hletter hescape]
    exact ih h
  | case9 _ _ _ hquote _ _ hslash hcontrol ih =>
    rw [List.cons_append, scan_plain hquote hslash (Bool.eq_false_iff.2 hcontrol)]
    exact ih h
  | case10 _ _ ih =>
    rw [List.cons_append, scan]
    exact ih h
  | _ => cases h

namespace Token

variable {rest : List Symbol}

/-- A run ends where it did if it ended before the text does, or if what follows does not go on with it. -/
theorem run_append_of {p : Char → Bool} {input : List Symbol} (h : afterRun p input ≠ [] ∨ EndsRun p rest) :
    run p (input ++ rest) = run p input ∧ afterRun p (input ++ rest) = afterRun p input ++ rest := by
  rw [run, run, afterRun, afterRun, List.takeWhile_append, List.dropWhile_append]
  by_cases hall : input.takeWhile (Option.any p) = input
  · have hempty : input.dropWhile (Option.any p) = [] := List.dropWhile_eq_nil_iff.2 (List.takeWhile_eq_self_iff.1 hall)
    obtain hne | hrest := h
    · exact absurd hempty hne
    · simp [hall, hempty, hrest.stops]
  · have hshort : (input.takeWhile (Option.any p)).length ≠ input.length := fun hlength =>
      hall ((List.takeWhile_prefix _).eq_of_length hlength)
    have hne : input.dropWhile (Option.any p) ≠ [] := fun hempty =>
      hall (List.takeWhile_eq_self_iff.2 (List.dropWhile_eq_nil_iff.1 hempty))
    simp [hshort, hne]

/-- Whether a token could be longer if the text went on. -/
def isOpen : Token → Bool
  | null | bool _ | number _ => true
  | _ => false

theorem isOpen_of_ofWord? {cs : List Char} {t : Token} (h : ofWord? cs = some t) : t.isOpen = true := by
  unfold ofWord? at h
  split_ifs at h <;> cases h <;> rfl

/-- Tokens behind which a text can go on: none of them gets longer by that. -/
def Stops (found : Array Token) (rest : List Symbol) : Prop :=
  (∀ t, found.back? = some t → t.isOpen = false) ∨ Json.Delimited rest

/-- The last run of a text ends in front of what follows. -/
theorem Stops.ends {done found : Array Token} {t : Token} {p : Char → Bool} {input : List Symbol}
    (h : Stops found rest) (hp : Json.Delimited rest → EndsRun p rest) (ht : t.isOpen = true)
    (hfound : scan (done.push t) (afterRun p input) = some found) : afterRun p input ≠ [] ∨ EndsRun p rest := by
  obtain hclosed | hrest := h
  · refine .inl fun hempty => ?_
    rw [hempty, scan] at hfound
    cases hfound
    rw [hclosed t (Array.back?_push ..)] at ht
    cases ht
  · exact .inr (hp hrest)

/-- Tokens that are found in a text are found in front of what follows, unless the last one goes on there. -/
theorem scan_append_of {done found : Array Token} {input : List Symbol} (h : scan done input = some found)
    (hrest : Stops found rest) : scan done (input ++ rest) = scan found rest := by
  fun_induction scan done input with
  | case1 =>
    cases h
    rfl
  | case3 _ _ _ hspace ih =>
    rw [List.cons_append, scan, if_pos hspace]
    exact ih h
  | case4 _ _ _ hspace hquote _ _ hfound ih =>
    rw [List.cons_append, scan, if_neg hspace, if_pos hquote]
    split
    · next hfound' =>
      cases (Item.scan_append rest hfound).symm.trans hfound'
      exact ih h
    · next hfound' => cases (Item.scan_append rest hfound).symm.trans hfound'
  | case6 _ _ _ hspace hquote hnumber _ hchars ih =>
    obtain ⟨hrun, hafter⟩ := run_append_of (hrest.ends And.left rfl h)
    rw [List.cons_append, scan, if_neg hspace, if_neg hquote, if_pos hnumber, hrun, hafter, hchars]
    exact ih h
  | case8 _ _ _ hspace hquote hnumber halpha _ hword ih =>
    obtain ⟨hrun, hafter⟩ := run_append_of (hrest.ends And.right (isOpen_of_ofWord? hword) h)
    rw [List.cons_append, scan, if_neg hspace, if_neg hquote, if_neg hnumber, if_pos halpha, hrun, hafter, hword]
    exact ih h
  | case10 _ _ _ hspace hquote hnumber halpha _ hmark ih =>
    rw [List.cons_append, scan, if_neg hspace, if_neg hquote, if_neg hnumber, if_neg halpha, hmark]
    exact ih h
  | _ => cases h

theorem ofSymbols?_append_of {front : List Symbol} {tokens : List Token} (h : ofSymbols? front = some tokens)
    (hrest : (∀ t, tokens.getLast? = some t → t.isOpen = false) ∨ Json.Delimited rest) :
    ofSymbols? (front ++ rest) = (ofSymbols? rest).map (tokens ++ ·) := by
  obtain ⟨found, hfound, rfl⟩ := Option.map_eq_some_iff.1 h
  have hstops : Stops found rest := hrest.imp_left fun hlast t ht => hlast t (by rwa [← Array.getLast?_toList] at ht)
  have happend := scan_append found #[] rest
  rw [Array.append_empty] at happend
  rw [ofSymbols?, scan_append_of hfound hstops, happend, ofSymbols?]
  cases scan #[] rest <;> simp

theorem head?_of_scan {t : Token} {tokens : List Token} {input : List Symbol}
    (h : (scan #[t] input).map Array.toList = some tokens) : tokens.head? = some t := by
  have happend := scan_append #[t] #[] input
  rw [Array.append_empty] at happend
  rw [happend, Option.map_map] at h
  obtain ⟨more, -, rfl⟩ := Option.map_eq_some_iff.1 h
  simp

/-- A text that begins with another token than a number or a word goes on with none. -/
theorem delimited_of_head {back : List Symbol} {tokens : List Token} (h : ofSymbols? back = some tokens)
    (hhead : ∀ t, tokens.head? = some t → t.isOpen = false) : Json.Delimited back := by
  match back with
  | [] => exact Json.delimited_nil
  | none :: _ =>
    rw [ofSymbols?, scan] at h
    cases h
  | some c :: back =>
    rw [ofSymbols?, scan] at h
    split_ifs at h with hspace hquote hnumber halpha
    · exact Json.delimited_space hspace
    · rw [beq_iff_eq.1 hquote]
      exact Json.delimited_cons rfl rfl
    · split at h
      · cases hhead _ (head?_of_scan h)
      · cases h
    · split at h
      · next hword => cases (isOpen_of_ofWord? hword).symm.trans (hhead _ (head?_of_scan h))
      · cases h
    · split at h
      · next hmark =>
        unfold ofMark? at hmark
        split at hmark <;> first | exact Json.delimited_cons rfl rfl | cases hmark
      · cases h

/-- White space between tokens can be replaced by other white space, or taken away where the tokens next to
it do not run together. -/
theorem ofSymbols?_respace {front back : List Symbol} {gap : List Char} {before after : List Token}
    (hgap : ∀ c ∈ gap, isSpace c = true) (hfront : ofSymbols? front = some before)
    (hback : ofSymbols? back = some after)
    (hapart : (∀ t, before.getLast? = some t → t.isOpen = false) ∨ ∀ t, after.head? = some t → t.isOpen = false) :
    ofSymbols? (front ++ (gap.map some ++ back)) = some (before ++ after) := by
  have hrest : (∀ t, before.getLast? = some t → t.isOpen = false) ∨ Json.Delimited (gap.map some ++ back) := by
    cases gap with
    | nil => exact hapart.imp_right (delimited_of_head hback)
    | cons c gap => exact .inr (Json.delimited_space (hgap c (List.mem_cons_self ..)))
  rw [ofSymbols?_append_of hfront hrest, ofSymbols?_spaces hgap, hback]
  rfl

end Token

/-! ## White space in the text of a value -/

namespace Json

namespace Reading

theorem isOpen_of_resume? {v : Json} {opened : List Frame} {t : Token} {r : Reading}
    (h : resume? v opened t = some r) : t.isOpen = false := by
  unfold resume? at h
  split at h <;> first | rfl | cases h

/-- A number or a word is a value of its own. -/
theorem exists_afterValue {r r' : Reading} {t : Token} (h : r.step t = some r') (ht : t.isOpen = true) :
    ∃ v opened, r' = ⟨.afterValue v, opened⟩ := by
  obtain ⟨expect, opened⟩ := r
  cases expect with
  | afterValue v => cases (isOpen_of_resume? h).symm.trans ht
  | _ =>
    cases t with
    | null | bool | number => cases h <;> exact ⟨_, _, rfl⟩
    | _ => cases ht

/-- No number or word follows another one. -/
theorem isOpen_eq_false {r r' : Reading} {before after : List Token} {t t' : Token}
    (h : (before ++ t :: t' :: after).foldlM step r = some r') (ht : t.isOpen = true) : t'.isOpen = false := by
  rw [List.foldlM_append, Option.bind_eq_bind, Option.bind_eq_some_iff] at h
  obtain ⟨r₁, -, h⟩ := h
  rw [List.foldlM_cons, Option.bind_eq_bind, Option.bind_eq_some_iff] at h
  obtain ⟨r₂, hstep, h⟩ := h
  rw [List.foldlM_cons, Option.bind_eq_bind, Option.bind_eq_some_iff] at h
  obtain ⟨r₃, hstep', -⟩ := h
  obtain ⟨v, opened, rfl⟩ := exists_afterValue hstep ht
  exact isOpen_of_resume? hstep'

end Reading

/-- The white space at one place between tokens, in front of them or behind them is replaced. -/
inductive Respaced : List Symbol → List Symbol → Prop
  | intro {front back : List Symbol} {gap gap' : List Char} {before after : List Token}
      (hgap : ∀ c ∈ gap, Token.isSpace c = true) (hgap' : ∀ c ∈ gap', Token.isSpace c = true)
      (hfront : Token.ofSymbols? front = some before) (hback : Token.ofSymbols? back = some after)
      (hbetween : Token.ofSymbols? (front ++ (gap.map some ++ back)) = some (before ++ after)) :
      Respaced (front ++ (gap.map some ++ back)) (front ++ (gap'.map some ++ back))

/-- A text writes the same value with other white space. -/
theorem parse?_respaced {text text' : List Symbol} {v : Json} (h : Respaced text text') (hv : parse? text = some v) :
    parse? text' = some v := by
  obtain @⟨front, back, gap, gap', before, after, -, hgap', hfront, hback, hbetween⟩ := h
  have hread : ofTokens? (before ++ after) = some v := by rwa [parse?, hbetween] at hv
  have hapart : (∀ t, before.getLast? = some t → t.isOpen = false) ∨
      ∀ t, after.head? = some t → t.isOpen = false := by
    by_cases hlast : ∀ t, before.getLast? = some t → t.isOpen = false
    · exact .inl hlast
    simp only [not_forall, Bool.not_eq_false] at hlast
    obtain ⟨t, hlast, ht⟩ := hlast
    refine .inr fun t' hhead => ?_
    obtain ⟨front, rfl⟩ := List.getLast?_eq_some_iff.1 hlast
    obtain ⟨back, rfl⟩ := List.head?_eq_some_iff.1 hhead
    obtain ⟨r, hr, -⟩ := Option.bind_eq_some_iff.1 hread
    rw [List.append_assoc] at hr
    exact Reading.isOpen_eq_false hr ht
  rw [parse?, Token.ofSymbols?_respace hgap' hfront hback hapart]
  exact hread

end Json

end Netlist
