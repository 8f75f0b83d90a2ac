/-
Reading a value back from its pretty form. The text is first taken apart into the tokens of the
value, whatever its breaks and indentation are; the reader then builds the value from its tokens,
with everything that is open around it left as it is.
-/
import Netlist.Json.Parse
import Netlist.Proofs.Json.Token

namespace Netlist.Json

open Text

/-- A value whose strings and numbers can be written. -/
inductive IsWritten : Json → Prop
  | null : IsWritten null
  | bool (b : Bool) : IsWritten (bool b)
  | number {n : Numeral} (h : n.IsWritten) : IsWritten (number n)
  | string {s : List Item} (h : ∀ i ∈ s, i.IsWritten) : IsWritten (string s)
  | array {elements : List Json} (h : ∀ v ∈ elements, IsWritten v) : IsWritten (array elements)
  | object {members : List (List Item × Json)} (hkey : ∀ m ∈ members, ∀ i ∈ m.1, i.IsWritten)
      (h : ∀ m ∈ members, IsWritten m.2) : IsWritten (object members)

/-! ## Tokens of a value -/

mutual

/-- The tokens of a value. -/
def tokens : Json → List Token
  | null => [.null]
  | bool b => [.bool b]
  | number n => [.number n]
  | string s => [.string s]
  | array [] => [.beginArray, .endArray]
  | array (v :: rest) => .beginArray :: (tokens v ++ elementTokens rest)
  | object [] => [.beginObject, .endObject]
  | object ((key, v) :: rest) =>
    .beginObject :: .string key :: .colon :: (tokens v ++ memberTokens rest)

/-- The tokens of the elements of an array behind the first one, up to its end. -/
def elementTokens : List Json → List Token
  | [] => [.endArray]
  | v :: rest => .comma :: (tokens v ++ elementTokens rest)

/-- The tokens of the members of an object behind the first one, up to its end. -/
def memberTokens : List (List Item × Json) → List Token
  | [] => [.endObject]
  | (key, v) :: rest => .comma :: .string key :: .colon :: (tokens v ++ memberTokens rest)

end

/-! ## Tokens of the text -/

/-- No number or word goes on in what follows. -/
def Delimited (rest : List Symbol) : Prop :=
  Token.EndsRun Numeral.isPart rest ∧ Token.EndsRun Char.isAlpha rest

variable {rest : List Symbol}

theorem delimited_nil : Delimited [] := ⟨nofun, nofun⟩

theorem delimited_cons {c : Char} (hpart : Numeral.isPart c = false) (halpha : c.isAlpha = false) :
    Delimited (some c :: rest) :=
  ⟨fun d hd => by cases hd; exact hpart, fun d hd => by cases hd; exact halpha⟩

theorem delimited_space {c : Char} (h : Token.isSpace c = true) : Delimited (some c :: rest) := by
  simp only [Token.isSpace, Bool.or_eq_true, beq_iff_eq] at h
  rcases h with ((rfl | rfl) | rfl) | rfl <;> exact delimited_cons rfl rfl

theorem ofSymbols?_newLine (level : Nat) :
    Token.ofSymbols? ((newLine level).map some ++ rest) = Token.ofSymbols? rest := by
  refine Token.ofSymbols?_spaces fun c hc => ?_
  rcases List.mem_cons.1 hc with rfl | hc
  · rfl
  · rw [List.eq_of_mem_replicate hc]
    rfl

/-- The pretty form of an array behind its first element. -/
def elementsEnd (level : Nat) (elements : List Json) : List Char :=
  prettyElements (level + 1) elements ++ (newLine level ++ [']'])

/-- The pretty form of an object behind its first member. -/
def membersEnd (level : Nat) (members : List (List Item × Json)) : List Char :=
  prettyMembers (level + 1) members ++ (newLine level ++ ['}'])

theorem pretty_array (level : Nat) (v : Json) (elements : List Json) :
    pretty level (.array (v :: elements)) =
      '[' :: (newLine (level + 1) ++ (pretty (level + 1) v ++ elementsEnd level elements)) := by
  simp only [pretty, elementsEnd, List.cons_append, List.append_assoc]

theorem pretty_object (level : Nat) (key : List Item) (v : Json)
    (members : List (List Item × Json)) :
    pretty level (.object ((key, v) :: members)) =
      '{' :: (newLine (level + 1) ++ (printString key ++ ':' :: ' ' ::
        (pretty (level + 1) v ++ membersEnd level members))) := by
  simp only [pretty, membersEnd, List.cons_append, List.append_assoc, List.nil_append]

theorem elementsEnd_cons (level : Nat) (v : Json) (elements : List Json) :
    elementsEnd level (v :: elements) =
      ',' :: (newLine (level + 1) ++ (pretty (level + 1) v ++ elementsEnd level elements)) := by
  simp only [prettyElements, elementsEnd, List.cons_append, List.append_assoc]

theorem membersEnd_cons (level : Nat) (key : List Item) (v : Json)
    (members : List (List Item × Json)) :
    membersEnd level ((key, v) :: members) =
      ',' :: (newLine (level + 1) ++ (printString key ++ ':' :: ' ' ::
        (pretty (level + 1) v ++ membersEnd level members))) := by
  simp only [prettyMembers, membersEnd, List.cons_append, List.append_assoc, List.nil_append]

theorem delimited_elementsEnd (level : Nat) (elements : List Json) :
    Delimited ((elementsEnd level elements).map some ++ rest) := by
  cases elements with
  | nil => exact delimited_cons rfl rfl
  | cons v elements =>
    rw [elementsEnd_cons]
    exact delimited_cons rfl rfl

theorem delimited_membersEnd (level : Nat) (members : List (List Item × Json)) :
    Delimited ((membersEnd level members).map some ++ rest) := by
  cases members with
  | nil => exact delimited_cons rfl rfl
  | cons m members =>
    rw [membersEnd_cons]
    exact delimited_cons rfl rfl

mutual

/-- The tokens of the pretty form of a value are the tokens of the value. -/
theorem ofSymbols?_pretty (level : Nat) : ∀ {v : Json} {rest : List Symbol}, v.IsWritten →
    Delimited rest → Token.ofSymbols? ((pretty level v).map some ++ rest) =
      (Token.ofSymbols? rest).map (v.tokens ++ ·)
  | .null, _, _, hrest => Token.ofSymbols?_word rfl hrest.2
  | .bool true, _, _, hrest => Token.ofSymbols?_word rfl hrest.2
  | .bool false, _, _, hrest => Token.ofSymbols?_word rfl hrest.2
  | .number _, _, .number hn, hrest => Token.ofSymbols?_printNumber hn hrest.1
  | .string _, _, .string hs, _ => Token.ofSymbols?_printString hs
  | .array [], rest, _, _ => by
    show Token.ofSymbols? (some '[' :: some ']' :: rest) = _
    rw [Token.ofSymbols?_mark rfl, Token.ofSymbols?_mark rfl, Option.map_map]
    rfl
  | .array (v :: elements), rest, .array h, _ => by
    simp only [pretty_array, List.map_cons, List.map_append, List.cons_append, List.append_assoc]
    rw [Token.ofSymbols?_mark rfl, ofSymbols?_newLine,
      ofSymbols?_pretty (level + 1) (h v (List.mem_cons_self ..)) (delimited_elementsEnd ..),
      ofSymbols?_elementsEnd level fun w hw => h w (List.mem_cons_of_mem _ hw)]
    simp [tokens, Function.comp_def]
  | .object [], rest, _, _ => by
    show Token.ofSymbols? (some '{' :: some '}' :: rest) = _
    rw [Token.ofSymbols?_mark rfl, Token.ofSymbols?_mark rfl, Option.map_map]
    rfl
  | .object ((key, v) :: members), rest, .object hkey h, _ => by
    simp only [pretty_object, List.map_cons, List.map_append, List.cons_append, List.append_assoc]
    rw [Token.ofSymbols?_mark rfl, ofSymbols?_newLine,
      Token.ofSymbols?_printString (hkey _ (List.mem_cons_self ..)), Token.ofSymbols?_mark rfl,
      Token.ofSymbols?_space rfl,
      ofSymbols?_pretty (level + 1) (h _ (List.mem_cons_self ..)) (delimited_membersEnd ..),
      ofSymbols?_membersEnd level (fun m hm => hkey m (List.mem_cons_of_mem _ hm))
        fun m hm => h m (List.mem_cons_of_mem _ hm)]
    simp [tokens, Function.comp_def]

theorem ofSymbols?_elementsEnd (level : Nat) : ∀ {elements : List Json} {rest : List Symbol},
    (∀ v ∈ elements, v.IsWritten) → Token.ofSymbols? ((elementsEnd level elements).map some ++ rest) =
      (Token.ofSymbols? rest).map (elementTokens elements ++ ·)
  | [], rest, _ => by
    simp only [elementsEnd, prettyElements, List.nil_append, List.map_append, List.append_assoc]
    rw [ofSymbols?_newLine]
    exact Token.ofSymbols?_mark rfl
  | v :: elements, rest, h => by
    simp only [elementsEnd_cons, List.map_cons, List.map_append, List.cons_append, List.append_assoc]
    rw [Token.ofSymbols?_mark rfl, ofSymbols?_newLine,
      ofSymbols?_pretty (level + 1) (h v (List.mem_cons_self ..)) (delimited_elementsEnd ..),
      ofSymbols?_elementsEnd level fun w hw => h w (List.mem_cons_of_mem _ hw)]
    simp [elementTokens, Function.comp_def]

theorem ofSymbols?_membersEnd (level : Nat) : ∀ {members : List (List Item × Json)}
    {rest : List Symbol}, (∀ m ∈ members, ∀ i ∈ m.1, i.IsWritten) → (∀ m ∈ members, m.2.IsWritten) →
    Token.ofSymbols? ((membersEnd level members).map some ++ rest) =
      (Token.ofSymbols? rest).map (memberTokens members ++ ·)
  | [], rest, _, _ => by
    simp only [membersEnd, prettyMembers, List.nil_append, List.map_append, List.append_assoc]
    rw [ofSymbols?_newLine]
    exact Token.ofSymbols?_mark rfl
  | (key, v) :: members, rest, hkey, h => by
    simp only [membersEnd_cons, List.map_cons, List.map_append, List.cons_append, List.append_assoc]
    rw [Token.ofSymbols?_mark rfl, ofSymbols?_newLine,
      Token.ofSymbols?_printString (hkey _ (List.mem_cons_self ..)), Token.ofSymbols?_mark rfl,
      Token.ofSymbols?_space rfl,
      ofSymbols?_pretty (level + 1) (h _ (List.mem_cons_self ..)) (delimited_membersEnd ..),
      ofSymbols?_membersEnd level (fun m hm => hkey m (List.mem_cons_of_mem _ hm))
        fun m hm => h m (List.mem_cons_of_mem _ hm)]
    simp [memberTokens, Function.comp_def]

end

/-! ## Values of tokens -/

namespace Reading

theorem begin?_of_step {opened : List Frame} {t : Token} (h : t ≠ .endArray) :
    step ⟨.firstElement, opened⟩ t = step ⟨.value, .array #[] :: opened⟩ t := by
  cases t with
  | endArray => exact absurd rfl h
  | _ => rfl

/-- A value behind the beginning of an array is read as any value. -/
theorem foldlM_first {opened : List Frame} (v : Json) (more : List Token) :
    (v.tokens ++ more).foldlM step ⟨.firstElement, opened⟩ =
      (v.tokens ++ more).foldlM step ⟨.value, .array #[] :: opened⟩ := by
  have hhead : ∃ t rest, v.tokens = t :: rest ∧ t ≠ .endArray := by
    cases v with
    | array elements => cases elements <;> exact ⟨_, _, rfl, nofun⟩
    | object members => cases members <;> exact ⟨_, _, rfl, nofun⟩
    | _ => exact ⟨_, _, rfl, nofun⟩
  obtain ⟨t, rest, htokens, ht⟩ := hhead
  rw [htokens, List.cons_append, List.foldlM_cons, List.foldlM_cons, begin?_of_step ht]

mutual

/-- The tokens of a value are read as this value, and what is open around it stays open. -/
theorem foldlM_tokens : ∀ (v : Json) (opened : List Frame) (more : List Token),
    (v.tokens ++ more).foldlM step ⟨.value, opened⟩ = more.foldlM step ⟨.afterValue v, opened⟩
  | .null, _, _ | .bool _, _, _ | .number _, _, _ | .string _, _, _ => rfl
  | .array [], _, _ | .object [], _, _ => rfl
  | .array (v :: elements), opened, more => by
    show (v.tokens ++ elementTokens elements ++ more).foldlM step ⟨.firstElement, opened⟩ = _
    rw [List.append_assoc, foldlM_first, foldlM_tokens, foldlM_elementTokens]
    rfl
  | .object ((key, v) :: members), opened, more => by
    show (v.tokens ++ memberTokens members ++ more).foldlM step
      ⟨.value, .object #[] key :: opened⟩ = _
    rw [List.append_assoc, foldlM_tokens, foldlM_memberTokens]
    rfl

theorem foldlM_elementTokens : ∀ (elements : List Json) (v : Json) (done : Array Json)
    (opened : List Frame) (more : List Token),
    (elementTokens elements ++ more).foldlM step ⟨.afterValue v, .array done :: opened⟩ =
      more.foldlM step ⟨.afterValue (.array (done.toList ++ v :: elements)), opened⟩
  | [], v, done, opened, more => by
    show more.foldlM step ⟨.afterValue (.array (done.push v).toList), opened⟩ = _
    rw [Array.toList_push]
  | w :: elements, v, done, opened, more => by
    show (w.tokens ++ elementTokens elements ++ more).foldlM step
      ⟨.value, .array (done.push v) :: opened⟩ = _
    rw [List.append_assoc, foldlM_tokens, foldlM_elementTokens, Array.toList_push, List.append_assoc]
    rfl

theorem foldlM_memberTokens : ∀ (members : List (List Item × Json)) (v : Json)
    (done : Array (List Item × Json)) (key : List Item) (opened : List Frame) (more : List Token),
    (memberTokens members ++ more).foldlM step ⟨.afterValue v, .object done key :: opened⟩ =
      more.foldlM step ⟨.afterValue (.object (done.toList ++ (key, v) :: members)), opened⟩
  | [], v, done, key, opened, more => by
    show more.foldlM step ⟨.afterValue (.object (done.push (key, v)).toList), opened⟩ = _
    rw [Array.toList_push]
  | (key', w) :: members, v, done, key, opened, more => by
    show (w.tokens ++ memberTokens members ++ more).foldlM step
      ⟨.value, .object (done.push (key, v)) key' :: opened⟩ = _
    rw [List.append_assoc, foldlM_tokens, foldlM_memberTokens, Array.toList_push, List.append_assoc]
    rfl

end

end Reading

theorem ofTokens?_tokens (v : Json) : ofTokens? v.tokens = some v := by
  have hread := Reading.foldlM_tokens v [] []
  rw [List.append_nil] at hread
  rw [ofTokens?, hread]
  rfl

/-- A text with the tokens of a value writes this value. -/
theorem parse?_of_tokens {text : List Text.Symbol} {v : Json} (h : Token.ofSymbols? text = some v.tokens) :
    parse? text = some v := by
  rw [parse?, h]
  exact ofTokens?_tokens v

/-- A written value is read back from its pretty form, also with white space behind it. -/
theorem parse?_pretty {v : Json} (h : v.IsWritten) (level : Nat) {blank : List Char}
    (hblank : ∀ c ∈ blank, Token.isSpace c = true) :
    parse? ((pretty level v ++ blank).map some) = some v := by
  have hdelimited : Delimited (blank.map some) := by
    cases blank with
    | nil => exact delimited_nil
    | cons c blank => exact delimited_space (hblank c (List.mem_cons_self ..))
  have hend : Token.ofSymbols? (blank.map some) = some [] := by
    rw [← List.append_nil (blank.map some), Token.ofSymbols?_spaces hblank, Token.ofSymbols?_nil]
  rw [parse?, List.map_append, ofSymbols?_pretty level h hdelimited, hend]
  show ofTokens? (v.tokens ++ []) = some v
  rw [List.append_nil, ofTokens?_tokens]

end Netlist.Json
