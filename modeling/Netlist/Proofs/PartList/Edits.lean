/-
Part lists that are read the same. The members of a record and of a payload may stand in any order, the
designation of a part may have either of its names, members that the part does not use may come and go, and
so may white space. A field that the part uses must not be given twice.
-/
import Mathlib.Logic.Relation
import Netlist.Proofs.Json.Spacing
import Netlist.Proofs.PartList.Records

namespace Netlist.PartList

open Text

variable {P : Type} {form : PayloadForm P}

/-- The members of an object as they are written. -/
abbrev Members := List (List Item × Json)

/-! ## Members -/

theorem ofJson?_around {before after : Members} {key : List Item} {v : Json} {fields : Fields} :
    Fields.ofJson? (.object (before ++ (key, v) :: after)) = some fields ↔ ∃ front name back,
      Fields.ofJson? (.object before) = some front ∧ Item.text? key = some name ∧
      Fields.ofJson? (.object after) = some back ∧ fields = front ++ (name, v) :: back := by
  simp only [Fields.ofJson?, mapM_append_eq_some, mapM_cons_eq_some, Option.map_eq_some_iff]
  constructor
  · rintro ⟨front, _, hfront, ⟨_, back, ⟨name, hname, rfl⟩, hback, rfl⟩, rfl⟩
    exact ⟨front, name, back, hfront, hname, hback, rfl⟩
  · rintro ⟨front, name, back, hfront, hname, hback, rfl⟩
    exact ⟨front, _, hfront, ⟨_, back, ⟨name, hname, rfl⟩, hback, rfl⟩, rfl⟩

theorem ofJson?_append {before after : Members} {fields : Fields} :
    Fields.ofJson? (.object (before ++ after)) = some fields ↔ ∃ front back,
      Fields.ofJson? (.object before) = some front ∧ Fields.ofJson? (.object after) = some back ∧
      fields = front ++ back :=
  mapM_append_eq_some

theorem ofJson?_perm {members members' : Members} (h : members.Perm members') {fields : Fields}
    (hfields : Fields.ofJson? (.object members) = some fields) :
    ∃ fields', Fields.ofJson? (.object members') = some fields' ∧ fields.Perm fields' :=
  exists_mapM_of_perm h hfields

/-! ## Payloads -/

/-- A form in which the order of the members of an object has no say. -/
def PayloadForm.Unordered (form : PayloadForm P) : Prop :=
  ∀ (members members' : Members) (a : P), members.Perm members' → form.ofJson? (.object members) = some a →
    form.ofJson? (.object members') = some a

theorem unordered_appearance : PayloadForm.appearance.Unordered := by
  intro members members' a hperm ha
  obtain ⟨fields, hfields, hread⟩ := Option.bind_eq_some_iff.1 ha
  obtain ⟨fields', hfields', hperm'⟩ := ofJson?_perm hperm hfields
  refine Option.bind_eq_some_iff.2 ⟨fields', hfields', ?_⟩
  simpa only [Fields.required?_congr (Fields.values_perm hperm' _)] using hread

theorem payload?_eq {fields : Fields} {v : Json} (h : fields.values ["payload"] = [v]) (hv : v ≠ .null) :
    payload? form fields = (form.ofJson? v).map some := by
  have hoptional : fields.optional? ["payload"] = some (some v) := by
    unfold Fields.optional?
    rw [h]
    cases v with
    | null => exact absurd rfl hv
    | _ => rfl
  rw [payload?, hoptional]
  rfl

/-! ## Records -/

/-- A change of the members of a record that keeps what a part of some kind uses. -/
inductive RecordEdit (c : Cell) : Members → Members → Prop
  | permute {members members' : Members} (h : members.Perm members') : RecordEdit c members members'
  /-- The designation gets one of its two names. -/
  | rename {before after : Members} {key key' : List Item} {name name' : String} {v : Json}
      (hkey : Item.text? key = some name) (hname : name ∈ ["pinned", "important"])
      (hkey' : Item.text? key' = some name') (hname' : name' ∈ ["pinned", "important"]) :
      RecordEdit c (before ++ (key, v) :: after) (before ++ (key', v) :: after)
  | insert {before after : Members} {key : List Item} {name : String} {v : Json}
      (hkey : Item.text? key = some name) (hname : ∀ names ∈ usedFields c, name ∉ names)
      (hv : v.isSound levelLimit = true) : RecordEdit c (before ++ after) (before ++ (key, v) :: after)
  | remove {before after : Members} {key : List Item} {name : String} {v : Json}
      (hkey : Item.text? key = some name) (hname : ∀ names ∈ usedFields c, name ∉ names) :
      RecordEdit c (before ++ (key, v) :: after) (before ++ after)
  /-- The members of the payload are permuted. -/
  | payload {before after : Members} {key : List Item} {members members' : Members}
      (hkey : Item.text? key = some "payload") (h : members.Perm members') :
      RecordEdit c (before ++ (key, .object members) :: after) (before ++ (key, .object members') :: after)

theorem values_singleton {names : List String} {name : String} (h : name ∉ names) (v : Json) :
    Fields.values [(name, v)] names = [] :=
  Fields.values_cons_of_notMem h v []

/-- The two names of the designation are those of one field. -/
theorem values_designation {c : Cell} {name name' : String} (hname : name ∈ ["pinned", "important"])
    (hname' : name' ∈ ["pinned", "important"]) (v : Json) :
    ∀ names ∈ usedFields c, Fields.values [(name', v)] names = Fields.values [(name, v)] names := by
  intro names hnames
  have hfield : ["pinned", "important"] ∈ usedFields c := mem_usedFields.2 (.inl (by decide))
  by_cases hmem : name ∈ names
  · rw [eq_of_mem_usedFields hnames hfield hmem hname, Fields.values_cons_of_mem hname,
      Fields.values_cons_of_mem hname']
  · have hmem' : name' ∉ names := fun hmem' =>
      hmem (eq_of_mem_usedFields hnames hfield hmem' hname' ▸ hname)
    rw [values_singleton hmem, values_singleton hmem']

/-- Another payload is read in the place of the one that is given. -/
theorem IsRecord.replacePayload {front back : Fields} {v v' : Json} {p : Part P}
    (h : IsRecord form (front ++ ("payload", v) :: back) p) (hv : v ≠ .null) (hv' : v' ≠ .null)
    (hread : ∀ a, form.ofJson? v = some a → form.ofJson? v' = some a) :
    IsRecord form (front ++ ("payload", v') :: back) p := by
  have hname : "payload" ∈ ["payload"] := List.mem_singleton_self _
  have hlength := h.length_values_le ["payload"] (mem_usedFields.2 (.inl (by decide)))
  rw [Fields.values_append, Fields.values_cons_of_mem hname, List.length_append, List.length_cons] at hlength
  have hfront : Fields.values front ["payload"] = [] := List.length_eq_zero_iff.1 (by omega)
  have hback : Fields.values back ["payload"] = [] := List.length_eq_zero_iff.1 (by omega)
  have hsingle : ∀ w, Fields.values (front ++ ("payload", w) :: back) ["payload"] = [w] := by
    intro w
    rw [Fields.values_append, Fields.values_cons_of_mem hname, hfront, hback, List.nil_append]
  refine h.congr (fun names hnames hne => ?_) ?_ ?_
  · have hnot : "payload" ∉ names := fun hmem =>
      hne (eq_of_mem_usedFields hnames (mem_usedFields.2 (.inl (by decide))) hmem hname)
    simp only [Fields.values_append, Fields.values_cons_of_notMem hnot, List.Perm.refl]
  · have hpayload := h.payload
    rw [payload?_eq (hsingle v) hv] at hpayload
    obtain ⟨a, ha, hp⟩ := Option.map_eq_some_iff.1 hpayload
    rw [payload?_eq (hsingle v') hv', hread a ha, ← hp]
    rfl
  · have hsound := isSound_without.1 h.sound
    refine isSound_without.2 fun m hm hnot => ?_
    rcases List.mem_append.1 hm with hm | hm
    · exact hsound m (List.mem_append_left _ hm) hnot
    · obtain rfl | hm := List.mem_cons.1 hm
      · exact absurd (show "payload" ∈ recordNames by decide) hnot
      · exact hsound m (List.mem_append_right _ (List.mem_cons_of_mem _ hm)) hnot

/-- A record is read as the same part when it is changed like that. -/
theorem RecordEdit.part?_eq_some {members members' : Members} {p : Part P} (h : RecordEdit p.cell members members')
    (hform : form.Unordered) (hp : part? form (.object members) = some p) :
    part? form (.object members') = some p := by
  obtain ⟨fields, hfields, hrecord⟩ := PartList.part?_eq_some.1 hp
  refine PartList.part?_eq_some.2 ?_
  cases h with
  | permute hperm =>
    obtain ⟨fields', hfields', hperm'⟩ := ofJson?_perm hperm hfields
    exact ⟨fields', hfields', hrecord.perm hperm'⟩
  | rename hkey hname hkey' hname' =>
    obtain ⟨front, _, back, hfront, hkey₀, hback, rfl⟩ := ofJson?_around.1 hfields
    cases hkey.symm.trans hkey₀
    refine ⟨_, ofJson?_around.2 ⟨front, _, back, hfront, hkey', hback, rfl⟩, ?_⟩
    refine hrecord.replace [_] [_] (values_designation hname hname' _) fun m hm hnot => ?_
    have hall : ∀ n ∈ ["pinned", "important"], n ∈ recordNames := by decide
    rw [List.mem_singleton.1 hm] at hnot
    exact absurd (hall _ hname') hnot
  | insert hkey hname hv =>
    obtain ⟨front, back, hfront, hback, rfl⟩ := ofJson?_append.1 hfields
    refine ⟨_, ofJson?_around.2 ⟨front, _, back, hfront, hkey, hback, rfl⟩, ?_⟩
    refine hrecord.replace [] [_] (fun names hnames => values_singleton (hname names hnames) _) fun m hm _ => ?_
    rwa [List.mem_singleton.1 hm]
  | remove hkey hname =>
    obtain ⟨front, _, back, hfront, hkey₀, hback, rfl⟩ := ofJson?_around.1 hfields
    cases hkey.symm.trans hkey₀
    refine ⟨_, ofJson?_append.2 ⟨front, back, hfront, hback, rfl⟩, ?_⟩
    exact hrecord.replace [_] [] (fun names hnames => (values_singleton (hname names hnames) _).symm) nofun
  | payload hkey hperm =>
    obtain ⟨front, _, back, hfront, hkey₀, hback, rfl⟩ := ofJson?_around.1 hfields
    cases hkey.symm.trans hkey₀
    refine ⟨_, ofJson?_around.2 ⟨front, _, back, hfront, hkey, hback, rfl⟩, ?_⟩
    exact hrecord.replacePayload nofun nofun fun a => hform _ _ a hperm

/-- A record is refused if a field that its part uses is given once more. -/
theorem part?_eq_none {front back : Members} {p : Part P} (hp : part? form (.object (front ++ back)) = some p)
    {names : List String} (hnames : names ∈ usedFields p.cell)
    (hgiven : ∃ m ∈ front ++ back, ∃ name ∈ names, Item.text? m.1 = some name) {key : List Item} {name : String}
    (hkey : Item.text? key = some name) (hname : name ∈ names) (v : Json) :
    part? form (.object (front ++ (key, v) :: back)) = none := by
  obtain ⟨fields, hfields, hrecord⟩ := part?_eq_some.1 hp
  have hvalues : fields.values names ≠ [] := by
    obtain ⟨m, hm, given, hgiven, hmkey⟩ := hgiven
    obtain ⟨before, after, hsplit⟩ := List.append_of_mem hm
    rw [hsplit] at hfields
    obtain ⟨_, _, _, -, hmkey', -, rfl⟩ := ofJson?_around.1 hfields
    cases hmkey.symm.trans hmkey'
    rw [Fields.values_append, Fields.values_cons_of_mem hgiven]
    exact List.append_ne_nil_of_right_ne_nil _ (List.cons_ne_nil _ _)
  refine Option.eq_none_iff_forall_ne_some.2 fun q hq => ?_
  obtain ⟨fields', hfields', hrecord'⟩ := part?_eq_some.1 hq
  obtain ⟨_, _, _, hfront, hkey', hback, rfl⟩ := ofJson?_around.1 hfields'
  obtain ⟨_, _, hfront', hback', rfl⟩ := ofJson?_append.1 hfields
  cases hfront.symm.trans hfront'
  cases hback.symm.trans hback'
  cases hkey.symm.trans hkey'
  exact hrecord.not_twice hnames hname hvalues v hrecord'

/-! ## Texts -/

variable {parts : List (Part P)} {text text' : List Symbol}

theorem read_eq_ok : read form text = .ok parts ↔
    ∃ elements, Json.parse? text = some (.array elements) ∧ elements.mapM (part? form) = some parts := by
  unfold read
  cases Json.parse? text with
  | none => simp
  | some v =>
    cases v with
    | array elements =>
      simp only [ofJson, Option.some.injEq, Json.array.injEq, exists_eq_left']
      split <;> simp_all
    | _ => simp [ofJson]

theorem read_eq_malformed {elements : List Json} (htext : Json.parse? text = some (.array elements))
    (helements : elements.mapM (part? form) = none) : read form text = .error .malformed := by
  rw [read, htext]
  simp only [ofJson, helements]

/-- A text that writes the same part list with one change, of white space or of the members of one record. -/
inductive Edit (parts : List (Part P)) : List Symbol → List Symbol → Prop
  | respace {text text' : List Symbol} (h : Json.Respaced text text') : Edit parts text text'
  | record {text text' : List Symbol} {before after : List Json} {members members' : Members} {p : Part P}
      (htext : Json.parse? text = some (.array (before ++ .object members :: after)))
      (htext' : Json.parse? text' = some (.array (before ++ .object members' :: after)))
      (hp : parts[before.length]? = some p) (h : RecordEdit p.cell members members') : Edit parts text text'

/-- A text in which a field that a part uses is given once more. -/
inductive GivenTwice (parts : List (Part P)) : List Symbol → List Symbol → Prop
  | intro {text text' : List Symbol} {before after : List Json} {front back : Members} {p : Part P}
      {key : List Item} {v : Json} {names : List String} {name : String}
      (htext : Json.parse? text = some (.array (before ++ .object (front ++ back) :: after)))
      (htext' : Json.parse? text' = some (.array (before ++ .object (front ++ (key, v) :: back) :: after)))
      (hp : parts[before.length]? = some p) (hnames : names ∈ usedFields p.cell)
      (hgiven : ∃ m ∈ front ++ back, ∃ name ∈ names, Item.text? m.1 = some name)
      (hkey : Item.text? key = some name) (hname : name ∈ names) : GivenTwice parts text text'

/-- The record at some position is read as the part there. -/
theorem mapM_around_parts {before after : List Json} {v : Json} {p : Part P}
    (h : (before ++ v :: after).mapM (part? form) = some parts) (hp : parts[before.length]? = some p) :
    part? form v = some p ∧ ∀ v', (part? form v' = some p → (before ++ v' :: after).mapM (part? form) = some parts) ∧
      (part? form v' = none → (before ++ v' :: after).mapM (part? form) = none) := by
  simp only [mapM_append_eq_some, mapM_cons_eq_some] at h
  obtain ⟨front, _, hfront, ⟨q, back, hq, hback, rfl⟩, rfl⟩ := h
  have hlength : front.length = before.length := (mapM_eq_some.1 hfront).length_eq.symm
  rw [← hlength, List.getElem?_append_right (Nat.le_refl _), Nat.sub_self] at hp
  cases hp
  refine ⟨hq, fun v' => ⟨fun hv' => ?_, fun hv' => ?_⟩⟩
  · exact mapM_append_eq_some.2 ⟨front, _, hfront, mapM_cons_eq_some.2 ⟨_, back, hv', hback, rfl⟩, rfl⟩
  · simp [List.mapM_append, hfront, hv']

theorem Edit.read_eq_ok (h : Edit parts text text') (hform : form.Unordered) (hread : read form text = .ok parts) :
    read form text' = .ok parts := by
  obtain ⟨elements, helements, hparts⟩ := PartList.read_eq_ok.1 hread
  refine PartList.read_eq_ok.2 ?_
  cases h with
  | respace hspace => exact ⟨elements, Json.parse?_respaced hspace helements, hparts⟩
  | record htext htext' hp hedit =>
    cases htext.symm.trans helements
    obtain ⟨hv, hreplace⟩ := mapM_around_parts hparts hp
    exact ⟨_, htext', (hreplace _).1 (hedit.part?_eq_some hform hv)⟩

theorem GivenTwice.read_eq_malformed (h : GivenTwice parts text text') (hread : read form text = .ok parts) :
    read form text' = .error .malformed := by
  obtain ⟨elements, helements, hparts⟩ := PartList.read_eq_ok.1 hread
  cases h with
  | intro htext htext' hp hnames hgiven hkey hname =>
    cases htext.symm.trans helements
    obtain ⟨hv, hreplace⟩ := mapM_around_parts hparts hp
    exact PartList.read_eq_malformed htext' ((hreplace _).2 (part?_eq_none hv hnames hgiven hkey hname _))

/-- A part list is read the same after any changes of its white space, of the order of the members of its
records and payloads, of the names of the designations, and of members that their parts do not use, which may
hold anything that can be held; and it is not read any more if a field that a part uses is given once more. -/
theorem read_by_name {parts : List (Part Appearance)} {text : List Symbol}
    (hread : read .appearance text = .ok parts) :
    (∀ text', Relation.ReflTransGen (Edit parts) text text' → read .appearance text' = .ok parts) ∧
    ∀ text', GivenTwice parts text text' → read .appearance text' = .error .malformed := by
  refine ⟨fun text' hedits => ?_, fun text' htwice => htwice.read_eq_malformed hread⟩
  induction hedits with
  | refl => exact hread
  | tail _ hedit ih => exact hedit.read_eq_ok unordered_appearance ih

/-- A timer as a part list of its own. -/
def bell : Part Appearance := ⟨0, .timer 2 1, [], [], false, none⟩

/-- The members of a record of the timer. -/
def bellMembers : Members :=
  [("id", .number ⟨false, ['0'], none, none⟩), ("kind", .ofText "timer"),
    ("ticks", .number ⟨false, ['2'], none, none⟩), ("seconds", .number ⟨false, ['1'], none, none⟩),
    ("connections", .array []), ("connections_from", .array []), ("important", .bool false)].map
      fun m => (Item.ofText m.1, m.2)

/-- The text of the record and what follows it, with more text behind the members. -/
def bellRecord (more : String) : List Symbol :=
  symbols ("\x7b\"id\":0,\"kind\":\"timer\",\"ticks\":2,\"seconds\":1,\"connections\":[]," ++
    "\"connections_from\":[],\"important\":false" ++ more ++ "\x7d]")

/-- The text of the part list, with white space in front of the record. -/
def bellText (space : List Char) (more : String) : List Symbol := symbols "[" ++ (space.map some ++ bellRecord more)

theorem tokens_bellText : Token.ofSymbols? (bellText [] "") = some (Json.array [.object bellMembers]).tokens := by
  decide +kernel

theorem parse?_bellText : Json.parse? (bellText [] "") = some (.array [.object bellMembers]) :=
  Json.parse?_of_tokens tokens_bellText

theorem part?_bellMembers : part? .appearance (.object bellMembers) = some bell := by decide +kernel

theorem read_bellText : read .appearance (bellText [] "") = .ok [bell] :=
  read_eq_ok.2 ⟨_, parse?_bellText, mapM_cons_eq_some.2 ⟨bell, [], part?_bellMembers, rfl, rfl⟩⟩

/-- There may be a line end in front of the record. -/
theorem respaced_bellText : Json.Respaced (bellText [] "") (bellText ['\n'] "") := by
  have hback : Token.ofSymbols? (bellRecord "") = some (Json.array [.object bellMembers]).tokens.tail := by
    decide +kernel
  have hfront : Token.ofSymbols? (symbols "[") = some [.beginArray] := by decide +kernel
  have hgap : ∀ c ∈ ['\n'], Token.isSpace c = true := List.all_eq_true.1 rfl
  exact @Json.Respaced.intro (symbols "[") (bellRecord "") [] ['\n'] _ _ (by simp) hgap hfront hback tokens_bellText

/-- A timer has no use for a mode, and its designation is given already. -/
theorem read_by_name_bell : read .appearance (bellText [] "") = .ok [bell] ∧
    Relation.ReflTransGen (Edit [bell]) (bellText [] "") (bellText ['\n'] ",\"mode\":[[null]]") ∧
    GivenTwice [bell] (bellText [] "") (bellText [] ",\"pinned\":true") ∧
    read .appearance (bellText ['\n'] ",\"mode\":[[null]]") = .ok [bell] ∧
    read .appearance (bellText [] ",\"pinned\":true") = .error .malformed := by
  have hmembers : Json.parse? (bellText [] "") = some (.array ([] ++ .object (bellMembers ++ []) :: [])) :=
    parse?_bellText
  have hspaced : Json.parse? (bellText ['\n'] "") = some (.array ([] ++ .object (bellMembers ++ []) :: [])) :=
    Json.parse?_respaced respaced_bellText hmembers
  have hmode : Json.parse? (bellText ['\n'] ",\"mode\":[[null]]") = some (.array ([] ++
      .object (bellMembers ++ (Item.ofText "mode", Json.array [Json.array [.null]]) :: []) :: [])) :=
    Json.parse?_of_tokens (by decide +kernel)
  have hinsert : RecordEdit bell.cell (bellMembers ++ [])
      (bellMembers ++ (Item.ofText "mode", Json.array [Json.array [.null]]) :: []) :=
    .insert (Item.text?_ofText "mode") (by decide) rfl
  have hedits : Relation.ReflTransGen (Edit [bell]) (bellText [] "") (bellText ['\n'] ",\"mode\":[[null]]") :=
    .tail (.single (.respace respaced_bellText)) (.record hspaced hmode rfl hinsert)
  have hpinned : Json.parse? (bellText [] ",\"pinned\":true") =
      some (.array ([] ++ .object (bellMembers ++ (Item.ofText "pinned", Json.bool true) :: []) :: [])) :=
    Json.parse?_of_tokens (by decide +kernel)
  have htwice : GivenTwice [bell] (bellText [] "") (bellText [] ",\"pinned\":true") := by
    refine .intro hmembers hpinned rfl
      (show ["pinned", "important"] ∈ usedFields bell.cell by decide) ?_ (Item.text?_ofText "pinned") (by decide)
    exact ⟨(Item.ofText "important", .bool false), by simp [bellMembers], "important", by decide,
      Item.text?_ofText "important"⟩
  obtain ⟨hsame, hrefused⟩ := read_by_name read_bellText
  exact ⟨read_bellText, hedits, htwice, hsame _ hedits, hrefused _ htwice⟩

/-- A member that the part does not use must hold something that can be held: a number beyond all finite ones
is a value, and is not nested at all, but the record is refused. -/
theorem read_refuses_infinity : read .appearance (bellText [] "") = .ok [bell] ∧
    Json.parse? (bellText [] "") = some (.array [.object bellMembers]) ∧
    Json.parse? (bellText [] ",\"x\":1e999") = some (.array [.object (bellMembers ++
      [(Item.ofText "x", .number ⟨false, ['1'], none, some ⟨false, ['9', '9', '9']⟩⟩)])]) ∧
    (∀ names ∈ usedFields bell.cell, "x" ∉ names) ∧
    read .appearance (bellText [] ",\"x\":1e999") = .error .malformed := by
  have hparse : Json.parse? (bellText [] ",\"x\":1e999") = some (.array [.object (bellMembers ++
      [(Item.ofText "x", .number ⟨false, ['1'], none, some ⟨false, ['9', '9', '9']⟩⟩)])]) :=
    Json.parse?_of_tokens (by decide +kernel)
  refine ⟨read_bellText, parse?_bellText, hparse, by decide, read_eq_malformed hparse ?_⟩
  decide +kernel

end Netlist.PartList
