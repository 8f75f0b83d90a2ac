/-
A part list is read back from its file as it was written. The number of a field is written in full
and read within its width; the members of a record are found by name, so the fields of the kind do
not get in the way of the others; a payload is read by its own form.
-/
import Netlist.PartList.Record
import Netlist.Proofs.Json.RoundTrip
import Netlist.Proofs.Sequence
import Netlist.Proofs.Text.Integer
import Netlist.Proofs.Text.Utf8

namespace Netlist

/-! ## Values that fit the format -/

/-- The coordinates of an appearance have 32 bits. -/
def Appearance.Fits (a : Appearance) : Prop :=
  ∀ z ∈ [a.pos.1, a.pos.2.1, a.pos.2.2, a.axis.1, a.axis.2], -0x80000000 ≤ z ∧ z < 0x80000000

instance (a : Appearance) : Decidable a.Fits := inferInstanceAs (Decidable (∀ z ∈ _, _))

/-- The ids in a part have 32 bits. The parameters of a timer are not mentioned: the limits of the
export bound them further. -/
structure Part.Fits {P : Type} (p : Part P) : Prop where
  id : p.id < 0x100000000
  connections : ∀ i ∈ p.connections, i < 0x100000000
  connectionsFrom : ∀ i ∈ p.connectionsFrom, i < 0x100000000

/-! ## Limits -/

theorem Cell.checkDelay_eq_ok {part : Nat} {c : Cell} :
    c.checkDelay part = .ok () ↔ c.delay ≤ maxDelay := by
  unfold checkDelay
  split <;> simp_all

theorem Part.checkLimits_eq_ok {P : Type} {p : Part P} :
    p.checkLimits = .ok () ↔ p.cell.delay ≤ maxDelay ∧ p.connectionsFrom.length ≤ maxInputs := by
  rw [checkLimits, bind_eq_ok]
  constructor
  · rintro ⟨⟨⟩, hdelay, hinputs⟩
    refine ⟨Cell.checkDelay_eq_ok.1 hdelay, ?_⟩
    by_contra hlt
    rw [if_pos (Nat.lt_of_not_le hlt)] at hinputs
    cases hinputs
  · rintro ⟨hdelay, hinputs⟩
    exact ⟨(), Cell.checkDelay_eq_ok.2 hdelay, if_neg (Nat.not_lt_of_le hinputs)⟩

theorem checkLimits_eq_ok {P : Type} {parts : List (Part P)} : checkLimits parts = .ok () ↔
    ∀ p ∈ parts, p.cell.delay ≤ maxDelay ∧ p.connectionsFrom.length ≤ maxInputs := by
  rw [checkLimits, forM_eq_ok]
  exact forall₂_congr fun _ _ => Part.checkLimits_eq_ok

/-! ## Numbers -/

namespace Numeral

@[simp] theorem nat?_ofNat (n : Nat) : (ofNat n).nat? = some n := by
  simp [ofNat, nat?, Nat.ofDigitChars_ten_toDigits]

@[simp] theorem int?_ofInt (z : Int) : (ofInt z).int? = some z := by
  have hvalue : Nat.ofDigitChars 10 (ofInt z).whole 0 = z.natAbs := Nat.ofDigitChars_ten_toDigits
  rw [int?, if_neg (by simp [ofInt]), hvalue]
  by_cases hz : z < 0
  · simp only [ofInt, hz, decide_true, if_true, if_neg (show z.natAbs ≠ 0 by omega)]
    exact congrArg some (by omega)
  · simp only [ofInt, hz, decide_false, Bool.false_eq_true, if_false]
    exact congrArg some (by omega)

theorem isWritten_ofNat (n : Nat) : (ofNat n).IsWritten := isWritten_of_digits false n

theorem isWritten_ofInt (z : Int) : (ofInt z).IsWritten := isWritten_of_digits (z < 0) z.natAbs

/-- No digit of a number below 64 bits is dropped. -/
theorem readWhole_eq (digits : List Char) (value : Nat)
    (h : Nat.ofDigitChars 10 digits value < 1 <<< 64) :
    readWhole value digits = ⟨Nat.ofDigitChars 10 digits value, 0⟩ := by
  induction digits generalizing value with
  | nil => rfl
  | cons d digits ih =>
    rw [Nat.ofDigitChars_cons, Nat.mul_comm] at h ⊢
    have hroom : roomFor value d = true :=
      decide_eq_true (Nat.lt_of_le_of_lt (Text.le_ofDigitChars digits _) h)
    rw [readWhole, if_pos hroom]
    exact ih _ h

theorem isFinite_ofNat {n : Nat} (h : n < 1 <<< 64) : (ofNat n).isFinite = true := by
  have hscaled : (ofNat n).scaled = ⟨n, 0⟩ := by
    have hdigits : Nat.ofDigitChars 10 (Nat.toDigits 10 n) 0 = n := Nat.ofDigitChars_ten_toDigits
    show readFraction (readWhole 0 (Nat.toDigits 10 n)) [] = _
    rw [readWhole_eq _ _ (by rw [hdigits]; exact h), hdigits]
    rfl
  simp [isFinite, hscaled]

end Numeral

namespace Json

theorem isWritten_ofText (text : String) : (ofText text).IsWritten :=
  .string fun _ => Item.isWritten_of_mem_ofText

theorem isWritten_ofNat (n : Nat) : (ofNat n).IsWritten := .number (Numeral.isWritten_ofNat n)

theorem isWritten_ofInt (z : Int) : (ofInt z).IsWritten := .number (Numeral.isWritten_ofInt z)

theorem isSound_ofText (limit : Nat) (text : String) : (ofText text).isSound limit = true := by
  simp [ofText, isSound, isText, Item.ofText, Item.chars?_map_char]

theorem isSound_ofNat (limit : Nat) {n : Nat} (h : n < 1 <<< 64) : (ofNat n).isSound limit = true := by
  simp [ofNat, isSound, Numeral.isFinite_ofNat h]

theorem isWritten_ofMembers {members : List (String × Json)} (h : ∀ m ∈ members, m.2.IsWritten) :
    (ofMembers members).IsWritten := by
  constructor <;> rintro _ hmem <;> obtain ⟨m, hm, rfl⟩ := List.mem_map.1 hmem
  · exact fun _ => Item.isWritten_of_mem_ofText
  · exact h m hm

end Json

/-! ## Fields -/

namespace PartList

@[simp] theorem ofJson?_ofMembers (members : List (String × Json)) :
    Fields.ofJson? (.ofMembers members) = some members := by
  exact mapM_map_eq_some fun m _ => by simp

theorem word?_ofNat {n : Nat} (h : n < 0x100000000) : word? (.ofNat n) = some n := by
  simp [word?, Json.ofNat, h]

theorem integer?_ofInt {z : Int} (h : -0x80000000 ≤ z ∧ z < 0x80000000) :
    integer? (.ofInt z) = some z := by
  simp [integer?, Json.ofInt, h]

@[simp] theorem text?_ofText (text : String) : text? (.ofText text) = some text :=
  Item.text?_ofText text

theorem words?_map_ofNat {ids : List Nat} (h : ∀ i ∈ ids, i < 0x100000000) :
    words? (.array (ids.map .ofNat)) = some ids := by
  exact mapM_map_eq_some fun i hi => word?_ofNat (h i hi)

/-! ## Payloads -/

/-- A payload that its form writes and reads back. A payload that is written as null is not one: it
is read as no payload. -/
structure PayloadForm.Keeps {P : Type} (form : PayloadForm P) (payload : P) : Prop where
  isWritten : (form.toJson payload).IsWritten
  ne_null : form.toJson payload ≠ .null
  ofJson? : form.ofJson? (form.toJson payload) = some payload

theorem keeps_appearance {a : Appearance} (h : a.Fits) : PayloadForm.appearance.Keeps a where
  isWritten := by
    refine Json.isWritten_ofMembers fun m hm => ?_
    simp only [List.mem_cons, List.not_mem_nil, or_false] at hm
    rcases hm with rfl | rfl | rfl
    · exact Json.isWritten_ofText _
    all_goals
      refine .array fun v hv => ?_
      simp only [List.mem_cons, List.not_mem_nil, or_false] at hv
    · rcases hv with rfl | rfl | rfl <;> exact Json.isWritten_ofInt _
    · rcases hv with rfl | rfl <;> exact Json.isWritten_ofInt _
  ne_null := nofun
  ofJson? := by
    simp only [Appearance.Fits, List.forall_mem_cons] at h
    obtain ⟨hx, hy, hz, hax, haz, -⟩ := h
    have hpos : position? (.array [.ofInt a.pos.1, .ofInt a.pos.2.1, .ofInt a.pos.2.2]) =
        some a.pos := by
      simp [position?, integer?_ofInt, hx, hy, hz]
    have haxis : axes? (.array [.ofInt a.axis.1, .ofInt a.axis.2]) = some a.axis := by
      simp [axes?, integer?_ofInt, hax, haz]
    show (do
      let fields ← Fields.ofJson? (appearanceJson a)
      appearanceOf? (← fields.required? ["color"]) (← fields.required? ["pos"])
        (← fields.required? ["axis"])) = some a
    rw [appearanceJson, ofJson?_ofMembers]
    simp [Fields.required?, Fields.values, appearanceOf?, hpos, haxis]

/-! ## Parts -/

variable {P : Type} {form : PayloadForm P}

theorem isTimer?_gate : isTimer? (.ofText "gate") = some false := rfl

theorem isTimer?_timer : isTimer? (.ofText "timer") = some true := by decide

variable {c : Cell}

theorem cell?_cellMembers (h : c.delay ≤ maxDelay) : cell? (cellMembers c) = some c := by
  cases c with
  | gate mode =>
    have hcode : mode.code < 0x100000000 := by cases mode <;> decide
    simp [cell?, cellMembers, Fields.required?, Fields.values, isTimer?_gate, word?_ofNat hcode]
  | timer ticks seconds =>
    simp only [Cell.delay, maxDelay, framesPerSecond] at h
    have hticks : word? (.ofNat ticks) = some ticks := word?_ofNat (by omega)
    have hseconds : word? (.ofNat seconds) = some seconds := word?_ofNat (by omega)
    simp [cell?, cellMembers, Fields.required?, Fields.values, isTimer?_timer, hticks, hseconds]

theorem isSound_cellMembers (h : c.delay ≤ maxDelay) :
    (cellMembers c).all (·.2.isSound levelLimit) = true := by
  cases c with
  | gate mode =>
    have hcode : mode.code < 1 <<< 64 := by cases mode <;> decide
    simp [cellMembers, Json.isSound_ofText, Json.isSound_ofNat _ hcode]
  | timer ticks seconds =>
    simp only [Cell.delay, maxDelay, framesPerSecond] at h
    have hticks : ticks < 1 <<< 64 := Nat.lt_of_le_of_lt (by omega : ticks ≤ 2400) (by decide)
    have hseconds : seconds < 1 <<< 64 := Nat.lt_of_le_of_lt (by omega : seconds ≤ 2400) (by decide)
    simp [cellMembers, Json.isSound_ofText, Json.isSound_ofNat _ hticks, Json.isSound_ofNat _ hseconds]

theorem isWritten_cellMembers {m : String × Json} (h : m ∈ cellMembers c) : m.2.IsWritten := by
  cases c with
  | gate mode =>
    simp only [cellMembers, List.mem_cons, List.not_mem_nil, or_false] at h
    rcases h with rfl | rfl
    exacts [Json.isWritten_ofText _, Json.isWritten_ofNat _]
  | timer ticks seconds =>
    simp only [cellMembers, List.mem_cons, List.not_mem_nil, or_false] at h
    rcases h with rfl | rfl | rfl
    exacts [Json.isWritten_ofText _, Json.isWritten_ofNat _, Json.isWritten_ofNat _]

variable {p : Part P}

/-- The members that are not fields of the record are those of the kind. -/
theorem without_recordNames :
    Fields.without (partMembers form p) recordNames = cellMembers p.cell := by
  obtain ⟨id, cell, connections, connectionsFrom, pinned, payload⟩ := p
  cases cell <;> cases payload <;> rfl

/-- Each field of a record is found by its name, whatever its kind is. -/
theorem required?_partMembers (form : PayloadForm P) (p : Part P) :
    Fields.required? (partMembers form p) ["id"] = some (.ofNat p.id) ∧
    Fields.required? (partMembers form p) ["connections"] =
      some (.array (p.connections.map .ofNat)) ∧
    Fields.required? (partMembers form p) ["connections_from"] =
      some (.array (p.connectionsFrom.map .ofNat)) ∧
    Fields.required? (partMembers form p) ["pinned", "important"] = some (.bool p.pinned) := by
  obtain ⟨id, cell, connections, connectionsFrom, pinned, payload⟩ := p
  cases cell <;> cases payload <;> exact ⟨rfl, rfl, rfl, rfl⟩

theorem optional?_partMembers (h : ∀ a, p.payload = some a → form.toJson a ≠ .null) :
    Fields.optional? (partMembers form p) ["payload"] = some (p.payload.map form.toJson) := by
  have hvalues : Fields.values (partMembers form p) ["payload"] = (p.payload.map form.toJson).toList := by
    obtain ⟨id, cell, connections, connectionsFrom, pinned, payload⟩ := p
    cases cell <;> cases payload <;> rfl
  unfold Fields.optional?
  rw [hvalues]
  cases hpayload : p.payload with
  | none => rfl
  | some a =>
    have hnull := h a hpayload
    rw [Option.map_some, Option.toList_some]
    split <;> simp_all

theorem part?_partJson (h : p.Fits) (hdelay : p.cell.delay ≤ maxDelay)
    (hpayload : ∀ a, p.payload = some a → form.Keeps a) :
    part? form (partJson form p) = some p := by
  obtain ⟨hid, hconnections, hfrom, hpinned⟩ := required?_partMembers form p
  have hoptional := optional?_partMembers fun a ha => (hpayload a ha).ne_null
  have htruth : truth? (.bool p.pinned) = some p.pinned := rfl
  rw [part?, partJson, ofJson?_ofMembers]
  simp only [Option.bind_eq_bind, Option.bind_some, Option.pure_def, without_recordNames,
    isSound_cellMembers hdelay, Bool.not_true, Bool.false_eq_true, if_false, hoptional, hid,
    hconnections, hfrom, hpinned, cell?_cellMembers hdelay, word?_ofNat h.id,
    words?_map_ofNat h.connections, words?_map_ofNat h.connectionsFrom, htruth]
  obtain ⟨id, cell, connections, connectionsFrom, pinned, payload⟩ := p
  cases payload with
  | none => rfl
  | some a => simp [(hpayload a rfl).ofJson?]

theorem isWritten_partJson (hpayload : ∀ a, p.payload = some a → form.Keeps a) :
    (partJson form p).IsWritten := by
  refine Json.isWritten_ofMembers fun m hm => ?_
  have hids (ids : List Nat) : (Json.array (ids.map .ofNat)).IsWritten := by
    refine .array fun v hv => ?_
    obtain ⟨i, -, rfl⟩ := List.mem_map.1 hv
    exact Json.isWritten_ofNat i
  rw [partMembers, List.cons_append, List.cons_append, List.mem_cons, List.mem_append,
    List.mem_append] at hm
  rcases hm with rfl | (hm | hm) | hm
  · exact Json.isWritten_ofNat _
  · exact isWritten_cellMembers hm
  · simp only [List.mem_cons, List.not_mem_nil, or_false] at hm
    rcases hm with rfl | rfl | rfl
    · exact hids _
    · exact hids _
    · exact .bool _
  · cases hp : p.payload with
    | none => simp [hp] at hm
    | some a =>
      rw [hp] at hm
      rw [List.mem_singleton.1 hm]
      exact (hpayload a hp).isWritten

/-! ## Part lists -/

variable {parts : List (Part P)}

/-- A list within the limits is read back from its text, if its numbers fit and its payloads are
kept by their form. -/
theorem read_render (hlimits : checkLimits parts = .ok ()) (h : ∀ p ∈ parts, p.Fits)
    (hpayload : ∀ p ∈ parts, ∀ a, p.payload = some a → form.Keeps a) :
    read form (Text.symbols (render form parts)) = .ok parts := by
  have hdelay := checkLimits_eq_ok.1 hlimits
  have hparse : Json.parse? (Text.symbols (render form parts)) =
      some (.array (parts.map (partJson form))) := by
    rw [Text.symbols, render, String.toList_ofList]
    refine Json.parse?_pretty (.array fun v hv => ?_) 0 (List.all_eq_true.1 rfl)
    obtain ⟨p, hp, rfl⟩ := List.mem_map.1 hv
    exact isWritten_partJson (hpayload p hp)
  have hparts : (parts.map (partJson form)).mapM (part? form) = some parts :=
    mapM_map_eq_some fun p hp => part?_partJson (h p hp) (hdelay p hp).1 (hpayload p hp)
  rw [read, hparse]
  show ofJson form _ = _
  rw [ofJson, hparts]

theorem write_eq_ok {text : String} :
    write form parts = .ok text ↔ checkLimits parts = .ok () ∧ render form parts = text := by
  rw [write, bind_eq_ok]
  constructor
  · rintro ⟨⟨⟩, hlimits, htext⟩
    exact ⟨hlimits, Except.ok.inj htext⟩
  · rintro ⟨hlimits, rfl⟩
    exact ⟨(), hlimits, rfl⟩

/-- A part list with appearances is written exactly if it is within the limits, and the same list is
then read from the bytes of its text. -/
theorem read_of_write (parts : List (Part Appearance)) (hparts : ∀ p ∈ parts, p.Fits)
    (hpayload : ∀ p ∈ parts, ∀ a, p.payload = some a → a.Fits) :
    ((∃ text, write .appearance parts = .ok text) ↔ checkLimits parts = .ok ()) ∧
    ∀ text, write .appearance parts = .ok text →
      read .appearance (Text.Utf8.decode text.toUTF8.data.toList) = .ok parts := by
  constructor
  · constructor
    · rintro ⟨text, htext⟩
      exact (write_eq_ok.1 htext).1
    · intro hlimits
      exact ⟨_, write_eq_ok.2 ⟨hlimits, rfl⟩⟩
  · intro text htext
    obtain ⟨hlimits, rfl⟩ := write_eq_ok.1 htext
    rw [Text.Utf8.decode_toUTF8]
    exact read_render hlimits hparts fun p hp a ha => keeps_appearance (hpayload p hp a ha)

/-- A gate whose color needs escapes and four bytes for a character, and a timer without payload
whose numbers are as large as they can be. -/
def vividParts : List (Part Appearance) :=
  [⟨0, .gate .xnor, [4294967295], [], true,
      some ⟨"\"é\\\n\x01𝄞\"", (-2147483648, 0, 2147483647), (1, -2)⟩⟩,
    ⟨4294967295, .timer 40 59, [], [0, 0], false, none⟩]

theorem read_of_write_vividParts : ∃ text, write .appearance vividParts = .ok text ∧
    read .appearance (Text.Utf8.decode text.toUTF8.data.toList) = .ok vividParts := by
  have hparts : ∀ p ∈ vividParts, p.Fits := by
    intro p hp
    simp only [vividParts, List.mem_cons, List.not_mem_nil, or_false] at hp
    rcases hp with rfl | rfl <;> exact ⟨by decide, by decide, by decide⟩
  have hpayload : ∀ p ∈ vividParts, ∀ a, p.payload = some a → a.Fits := by
    intro p hp a ha
    simp only [vividParts, List.mem_cons, List.not_mem_nil, or_false] at hp
    rcases hp with rfl | rfl <;> cases ha
    decide
  have hwrite := read_of_write vividParts hparts hpayload
  obtain ⟨text, htext⟩ := hwrite.1.2 (by decide)
  exact ⟨text, htext, hwrite.2 text htext⟩

end PartList

end Netlist
