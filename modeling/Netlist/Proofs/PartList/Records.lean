/-
A record as a set of named fields. What is read from it are the values of the fields of a part, of its kind and
of the parameters that the kind uses, each of which is given once; the order of the members and all other
members have no say in it.
-/
import Netlist.PartList.Record
import Netlist.Proofs.Sequence

namespace Netlist.PartList

variable {P : Type} {form : PayloadForm P}

/-! ## Fields -/

namespace Fields

variable {fields fields' : Fields} {names : List String}

theorem values_append (fields fields' : Fields) (names : List String) :
    values (fields ++ fields') names = values fields names ++ values fields' names := by
  simp [values]

theorem values_cons_of_mem {name : String} (h : name ∈ names) (v : Json) (fields : Fields) :
    values ((name, v) :: fields) names = v :: values fields names := by
  simp [values, h]

theorem values_cons_of_notMem {name : String} (h : name ∉ names) (v : Json) (fields : Fields) :
    values ((name, v) :: fields) names = values fields names := by
  simp [values, h]

theorem values_perm (h : fields.Perm fields') (names : List String) :
    (values fields names).Perm (values fields' names) :=
  (h.filter _).map _

theorem values_without {others : List String} (h : ∀ name ∈ names, name ∉ others) :
    values (without fields others) names = values fields names := by
  rw [values, without, List.filter_filter]
  refine congrArg (List.map _) (List.filter_congr fun m _ => ?_)
  by_cases hm : m.1 ∈ names <;> simp [hm, h]

theorem required?_eq_some {v : Json} : required? fields names = some v ↔ values fields names = [v] := by
  unfold required?
  split <;> simp_all

/-- Lists with the same entries are empty, of one entry or longer together. -/
theorem values_cases {l l' : List Json} (h : l.Perm l') :
    l' = l ∨ ∃ v w rest v' w' rest', l = v :: w :: rest ∧ l' = v' :: w' :: rest' := by
  match l, l', h with
  | [], l', h => exact .inl h.nil_eq.symm
  | [v], l', h => exact .inl (List.perm_singleton.1 h.symm)
  | v :: w :: rest, v' :: w' :: rest', _ => exact .inr ⟨v, w, rest, v', w', rest', rfl, rfl⟩
  | _ :: _ :: _, [], h => cases h.length_eq
  | _ :: _ :: _, [_], h => cases h.length_eq

theorem required?_congr (h : (values fields names).Perm (values fields' names)) :
    required? fields' names = required? fields names := by
  unfold required?
  obtain heq | ⟨_, _, _, _, _, _, heq, heq'⟩ := values_cases h
  · rw [heq]
  · rw [heq, heq']

theorem optional?_eq_none {v w : Json} {rest : List Json} (h : values fields names = v :: w :: rest) :
    optional? fields names = none := by
  unfold optional?
  rw [h]
  cases v <;> rfl

theorem optional?_congr (h : (values fields names).Perm (values fields' names)) :
    optional? fields' names = optional? fields names := by
  obtain heq | ⟨_, _, _, _, _, _, heq, heq'⟩ := values_cases h
  · rw [optional?, optional?, heq]
  · rw [optional?_eq_none heq, optional?_eq_none heq']

end Fields

/-- What a field that must be given says. -/
def Fields.given? {α : Type} (fields : Fields) (names : List String) (read : Json → Option α) : Option α :=
  (fields.required? names).bind read

theorem Fields.given?_eq_some {α : Type} {fields : Fields} {names : List String} {read : Json → Option α} {a : α} :
    fields.given? names read = some a ↔ ∃ v, fields.values names = [v] ∧ read v = some a := by
  simp only [given?, Option.bind_eq_some_iff, required?_eq_some]

/-! ## Records -/

/-- The names of the parameters that a kind uses. -/
def parameterNames : Cell → List String
  | .gate _ => ["mode"]
  | .timer .. => ["ticks", "seconds"]

/-- The fields that every part uses, each with its names. -/
def commonFields : List (List String) :=
  [["id"], ["connections"], ["connections_from"], ["pinned", "important"], ["payload"], ["kind"]]

/-- The fields that a part uses, each with its names. -/
def usedFields (c : Cell) : List (List String) := commonFields ++ (parameterNames c).map ([·])

/-- The payload that some fields describe. -/
def payload? (form : PayloadForm P) (fields : Fields) : Option (Option P) := do
  match ← fields.optional? ["payload"] with
  | none => some none
  | some v => (form.ofJson? v).map some

/-- What the fields of a record say about the part. -/
structure IsRecord (form : PayloadForm P) (fields : Fields) (p : Part P) : Prop where
  sound : (fields.without recordNames).all (·.2.isSound levelLimit) = true
  payload : payload? form fields = some p.payload
  id : fields.given? ["id"] word? = some p.id
  cell : cell? (fields.without recordNames) = some p.cell
  connections : fields.given? ["connections"] words? = some p.connections
  connectionsFrom : fields.given? ["connections_from"] words? = some p.connectionsFrom
  pinned : fields.given? ["pinned", "important"] truth? = some p.pinned

theorem part?_eq (form : PayloadForm P) (v : Json) : part? form v = (Fields.ofJson? v).bind fun fields =>
    if (fields.without recordNames).all (·.2.isSound levelLimit) then do
      let payload ← payload? form fields
      let id ← fields.given? ["id"] word?
      let cell ← cell? (fields.without recordNames)
      let connections ← fields.given? ["connections"] words?
      let connectionsFrom ← fields.given? ["connections_from"] words?
      let pinned ← fields.given? ["pinned", "important"] truth?
      return { id, cell, connections, connectionsFrom, pinned, payload }
    else none := by
  rw [part?]
  congr 1
  funext fields
  simp only [payload?, Fields.given?, Option.bind_eq_bind, Option.bind_assoc]
  by_cases hsound : ((fields.without recordNames).all (·.2.isSound levelLimit)) = true
  · simp only [hsound, Bool.not_true, Bool.false_eq_true, if_false, if_true]
    congr 1
    funext payload
    cases payload <;> rfl
  · simp [hsound]

theorem part?_eq_some {v : Json} {p : Part P} :
    part? form v = some p ↔ ∃ fields, Fields.ofJson? v = some fields ∧ IsRecord form fields p := by
  rw [part?_eq, Option.bind_eq_some_iff]
  refine exists_congr fun fields => and_congr_right fun _ => ?_
  split
  · next hsound =>
    simp only [Option.bind_eq_bind, Option.bind_eq_some_iff]
    constructor
    · rintro ⟨payload, hpayload, id, hid, cell, hcell, connections, hconnections, sources, hsources, pinned,
        hpinned, hp⟩
      cases hp
      exact ⟨hsound, hpayload, hid, hcell, hconnections, hsources, hpinned⟩
    · intro h
      exact ⟨_, h.payload, _, h.id, _, h.cell, _, h.connections, _, h.connectionsFrom, _, h.pinned, rfl⟩
  · next hsound => exact ⟨nofun, fun h => absurd h.sound hsound⟩

/-! ## Kinds -/

/-- The mode of a gate. -/
def mode? (v : Json) : Option Mode := (word? v).bind Mode.ofCode?

theorem cell?_eq (fields : Fields) : cell? fields = (fields.given? ["kind"] isTimer?).bind fun isTimer =>
    if isTimer then do
      let ticks ← fields.given? ["ticks"] word?
      let seconds ← fields.given? ["seconds"] word?
      return .timer ticks seconds
    else (fields.given? ["mode"] mode?).map .gate := by
  simp only [cell?, Fields.given?, mode?, Option.bind_eq_bind, Option.bind_assoc, Option.map_bind, Function.comp_def]
  congr 1
  funext kind
  congr 1
  funext isTimer
  cases isTimer with
  | false =>
    simp only [Option.map_eq_bind]
    rfl
  | true => rfl

theorem cell?_eq_gate {fields : Fields} {mode : Mode} : cell? fields = some (.gate mode) ↔
    fields.given? ["kind"] isTimer? = some false ∧ fields.given? ["mode"] mode? = some mode := by
  rw [cell?_eq, Option.bind_eq_some_iff]
  constructor
  · rintro ⟨isTimer, hkind, h⟩
    cases isTimer with
    | false =>
      obtain ⟨_, hmode, hgate⟩ := Option.map_eq_some_iff.1 h
      cases hgate
      exact ⟨hkind, hmode⟩
    | true =>
      simp only [if_true, Option.bind_eq_bind, Option.bind_eq_some_iff] at h
      obtain ⟨_, -, _, -, h⟩ := h
      cases h
  · rintro ⟨hkind, hmode⟩
    exact ⟨false, hkind, by simp [hmode]⟩

theorem cell?_eq_timer {fields : Fields} {ticks seconds : Nat} : cell? fields = some (.timer ticks seconds) ↔
    fields.given? ["kind"] isTimer? = some true ∧ fields.given? ["ticks"] word? = some ticks ∧
      fields.given? ["seconds"] word? = some seconds := by
  rw [cell?_eq, Option.bind_eq_some_iff]
  constructor
  · rintro ⟨isTimer, hkind, h⟩
    cases isTimer with
    | false =>
      obtain ⟨_, -, hgate⟩ := Option.map_eq_some_iff.1 h
      cases hgate
    | true =>
      simp only [if_true, Option.bind_eq_bind, Option.bind_eq_some_iff] at h
      obtain ⟨_, hticks, _, hseconds, h⟩ := h
      cases h
      exact ⟨hkind, hticks, hseconds⟩
  · rintro ⟨hkind, hticks, hseconds⟩
    exact ⟨true, hkind, by simp [hticks, hseconds]⟩

/-! ## Records that say the same -/

namespace Fields

variable {fields fields' : Fields} {names : List String}

theorem given?_congr {α : Type} (h : (values fields names).Perm (values fields' names)) (read : Json → Option α) :
    given? fields' names read = given? fields names read := by
  rw [given?, given?, required?_congr h]

end Fields

theorem payload?_congr {fields fields' : Fields} (h : (fields.values ["payload"]).Perm (fields'.values ["payload"])) :
    payload? form fields' = payload? form fields := by
  rw [payload?, payload?, Fields.optional?_congr h]

theorem cell?_congr {c : Cell} {fields fields' : Fields} (h : cell? fields = some c)
    (hkind : (fields.values ["kind"]).Perm (fields'.values ["kind"]))
    (hparameters : ∀ name ∈ parameterNames c, (fields.values [name]).Perm (fields'.values [name])) :
    cell? fields' = some c := by
  cases c with
  | gate mode =>
    rw [cell?_eq_gate] at h ⊢
    rwa [Fields.given?_congr hkind, Fields.given?_congr (hparameters "mode" (List.mem_singleton_self _))]
  | timer ticks seconds =>
    rw [cell?_eq_timer] at h ⊢
    rwa [Fields.given?_congr hkind, Fields.given?_congr (hparameters "ticks" (List.mem_cons_self ..)),
      Fields.given?_congr (hparameters "seconds" (List.mem_cons_of_mem _ (List.mem_singleton_self _)))]

/-- The kind and its parameters are no fields of the record itself. -/
theorem notMem_recordNames (c : Cell) : ∀ name ∈ "kind" :: parameterNames c, name ∉ recordNames := by
  cases c with
  | gate => exact show ∀ name ∈ ["kind", "mode"], name ∉ recordNames by decide
  | timer => exact show ∀ name ∈ ["kind", "ticks", "seconds"], name ∉ recordNames by decide

theorem kind_notMem (c : Cell) : "kind" ∉ parameterNames c := by
  cases c with
  | gate => exact show "kind" ∉ ["mode"] by decide
  | timer => exact show "kind" ∉ ["ticks", "seconds"] by decide

theorem mem_usedFields {c : Cell} {names : List String} :
    names ∈ usedFields c ↔ names ∈ commonFields ∨ ∃ name ∈ parameterNames c, names = [name] := by
  simp [usedFields, eq_comm]

/-- No name belongs to two fields. -/
theorem eq_of_mem_usedFields {c : Cell} {names names' : List String} (h : names ∈ usedFields c)
    (h' : names' ∈ usedFields c) {name : String} (hname : name ∈ names) (hname' : name ∈ names') : names = names' := by
  have hgate : ∀ names ∈ commonFields ++ [["mode"]], ∀ names' ∈ commonFields ++ [["mode"]],
      ∀ name ∈ names, name ∈ names' → names = names' := by decide
  have htimer : ∀ names ∈ commonFields ++ [["ticks"], ["seconds"]],
      ∀ names' ∈ commonFields ++ [["ticks"], ["seconds"]], ∀ name ∈ names, name ∈ names' → names = names' := by decide
  cases c with
  | gate => exact hgate names h names' h' name hname hname'
  | timer => exact htimer names h names' h' name hname hname'

theorem isSound_without {fields : Fields} : (fields.without recordNames).all (·.2.isSound levelLimit) = true ↔
    ∀ m ∈ fields, m.1 ∉ recordNames → m.2.isSound levelLimit = true := by
  simp [Fields.without, List.all_eq_true, or_iff_not_imp_left]

/-- A record says the same about a part if all fields but the payload have the values that they had, and if the
payload is the same. -/
theorem IsRecord.congr {fields fields' : Fields} {p : Part P} (h : IsRecord form fields p)
    (hvalues : ∀ names ∈ usedFields p.cell, names ≠ ["payload"] →
      (fields.values names).Perm (fields'.values names))
    (hpayload : payload? form fields' = some p.payload)
    (hsound : (fields'.without recordNames).all (·.2.isSound levelLimit) = true) : IsRecord form fields' p := by
  have hcommon : ∀ names ∈ commonFields, names ≠ ["payload"] → (fields.values names).Perm (fields'.values names) :=
    fun names hnames => hvalues names (mem_usedFields.2 (.inl hnames))
  have hothers : ∀ name ∈ "kind" :: parameterNames p.cell, [name] ∈ usedFields p.cell →
      ((fields.without recordNames).values [name]).Perm ((fields'.without recordNames).values [name]) := by
    intro name hname hused
    have hnot := notMem_recordNames p.cell name hname
    have hsingle : ∀ n ∈ [name], n ∉ recordNames := by simpa using hnot
    rw [Fields.values_without hsingle, Fields.values_without hsingle]
    refine hvalues _ hused fun heq => hnot ?_
    rw [List.singleton_inj.1 heq]
    decide
  refine ⟨hsound, hpayload, ?_, ?_, ?_, ?_, ?_⟩
  · exact (Fields.given?_congr (hcommon ["id"] (by decide) (by decide)) _).trans h.id
  · refine cell?_congr h.cell (hothers "kind" (List.mem_cons_self ..) (mem_usedFields.2 (.inl (by decide))))
      fun name hname => ?_
    exact hothers name (List.mem_cons_of_mem _ hname) (mem_usedFields.2 (.inr ⟨name, hname, rfl⟩))
  · exact (Fields.given?_congr (hcommon ["connections"] (by decide) (by decide)) _).trans h.connections
  · exact (Fields.given?_congr (hcommon ["connections_from"] (by decide) (by decide)) _).trans h.connectionsFrom
  · exact (Fields.given?_congr (hcommon ["pinned", "important"] (by decide) (by decide)) _).trans h.pinned

theorem IsRecord.perm {fields fields' : Fields} {p : Part P} (h : IsRecord form fields p)
    (hperm : fields.Perm fields') : IsRecord form fields' p := by
  refine h.congr (fun names _ _ => Fields.values_perm hperm names) ?_ ?_
  · exact (payload?_congr (Fields.values_perm hperm _)).trans h.payload
  · exact isSound_without.2 fun m hm => isSound_without.1 h.sound m (hperm.mem_iff.2 hm)

/-- Some members are replaced by others that give the same values to the fields that are used. -/
theorem IsRecord.replace {front back : Fields} {p : Part P} (old new : Fields)
    (h : IsRecord form (front ++ (old ++ back)) p)
    (hvalues : ∀ names ∈ usedFields p.cell, new.values names = old.values names)
    (hsound : ∀ m ∈ new, m.1 ∉ recordNames → m.2.isSound levelLimit = true) :
    IsRecord form (front ++ (new ++ back)) p := by
  have hsame : ∀ names ∈ usedFields p.cell,
      ((front ++ (old ++ back) : Fields).values names).Perm ((front ++ (new ++ back) : Fields).values names) := by
    intro names hnames
    simp only [Fields.values_append, hvalues names hnames, List.Perm.refl]
  refine h.congr (fun names hnames _ => hsame names hnames) ?_ ?_
  · exact (payload?_congr (hsame _ (mem_usedFields.2 (.inl (by decide))))).trans h.payload
  · have hold := isSound_without.1 h.sound
    refine isSound_without.2 fun m hm => ?_
    simp only [List.mem_append] at hm hold
    rcases hm with hm | hm | hm
    · exact hold m (.inl hm)
    · exact hsound m hm
    · exact hold m (.inr (.inr hm))

/-! ## Fields that are given once -/

namespace Fields

variable {fields : Fields} {names : List String}

theorem length_le_of_given? {α : Type} {read : Json → Option α} {a : α} (h : given? fields names read = some a) :
    (values fields names).length ≤ 1 := by
  obtain ⟨v, hv, -⟩ := given?_eq_some.1 h
  rw [hv]
  exact Nat.le_refl 1

theorem length_le_of_optional? {v : Option Json} (h : optional? fields names = some v) :
    (values fields names).length ≤ 1 := by
  match hvalues : values fields names with
  | [] => exact Nat.zero_le 1
  | [_] => exact Nat.le_refl 1
  | _ :: _ :: _ => cases (optional?_eq_none hvalues).symm.trans h

end Fields

theorem length_le_of_cell? {fields : Fields} {c : Cell} (h : cell? fields = some c) :
    ∀ name ∈ "kind" :: parameterNames c, (fields.values [name]).length ≤ 1 := by
  cases c with
  | gate mode =>
    obtain ⟨hkind, hmode⟩ := cell?_eq_gate.1 h
    simp [parameterNames, Fields.length_le_of_given? hkind, Fields.length_le_of_given? hmode]
  | timer ticks seconds =>
    obtain ⟨hkind, hticks, hseconds⟩ := cell?_eq_timer.1 h
    simp [parameterNames, Fields.length_le_of_given? hkind, Fields.length_le_of_given? hticks,
      Fields.length_le_of_given? hseconds]

variable {fields : Fields} {p : Part P}

theorem IsRecord.length_le_of_mem (h : IsRecord form fields p) {name : String}
    (hname : name ∈ "kind" :: parameterNames p.cell) : (fields.values [name]).length ≤ 1 := by
  have hnot := notMem_recordNames p.cell name hname
  have hlength := length_le_of_cell? h.cell name hname
  rwa [Fields.values_without (by simpa using hnot)] at hlength

/-- No field that a part uses is given twice. -/
theorem IsRecord.length_values_le (h : IsRecord form fields p) :
    ∀ names ∈ usedFields p.cell, (fields.values names).length ≤ 1 := by
  intro names hnames
  obtain hcommon | ⟨name, hname, rfl⟩ := mem_usedFields.1 hnames
  · simp only [commonFields, List.mem_cons, List.not_mem_nil, or_false] at hcommon
    rcases hcommon with rfl | rfl | rfl | rfl | rfl | rfl
    · exact Fields.length_le_of_given? h.id
    · exact Fields.length_le_of_given? h.connections
    · exact Fields.length_le_of_given? h.connectionsFrom
    · exact Fields.length_le_of_given? h.pinned
    · obtain ⟨_, hpayload, -⟩ := Option.bind_eq_some_iff.1 h.payload
      exact Fields.length_le_of_optional? hpayload
    · exact h.length_le_of_mem (List.mem_cons_self ..)
  · exact h.length_le_of_mem (List.mem_cons_of_mem _ hname)

/-- The kind says which parameters are used. -/
theorem IsRecord.parameterNames_eq {fields' : Fields} {q : Part P} (h : IsRecord form fields p)
    (h' : IsRecord form fields' q) (hkind : fields'.values ["kind"] = fields.values ["kind"]) :
    parameterNames q.cell = parameterNames p.cell := by
  have hsame : (fields'.without recordNames).given? ["kind"] isTimer? =
      (fields.without recordNames).given? ["kind"] isTimer? := by
    have hnot : ∀ name ∈ ["kind"], name ∉ recordNames := by decide
    refine Fields.given?_congr ?_ _
    rw [Fields.values_without hnot, Fields.values_without hnot, hkind]
  have hcell := h.cell
  have hcell' := h'.cell
  cases hp : p.cell <;> cases hq : q.cell <;>
    simp only [hp, hq, cell?_eq_gate, cell?_eq_timer] at hcell hcell'
  · rfl
  · cases hcell.1.symm.trans (hsame.symm.trans hcell'.1)
  · cases hcell.1.symm.trans (hsame.symm.trans hcell'.1)
  · rfl

/-- A record in which a field of the part is given once more says nothing about any part. -/
theorem IsRecord.not_twice {before after : Fields} {p q : Part P} (h : IsRecord form (before ++ after) p)
    {names : List String} (hnames : names ∈ usedFields p.cell) {name : String} (hname : name ∈ names)
    (hgiven : (Fields.values (before ++ after) names) ≠ []) (v : Json) :
    ¬ IsRecord form (before ++ (name, v) :: after) q := by
  intro hq
  have hlength := List.length_pos_iff.2 hgiven
  have htwice : 1 < (Fields.values (before ++ (name, v) :: after) names).length := by
    rw [Fields.values_append, List.length_append] at hlength ⊢
    rw [Fields.values_cons_of_mem hname, List.length_cons]
    omega
  refine absurd (hq.length_values_le names ?_) (Nat.not_le_of_lt htwice)
  obtain hcommon | ⟨parameter, hparameter, rfl⟩ := mem_usedFields.1 hnames
  · exact mem_usedFields.2 (.inl hcommon)
  -- another value for a parameter leaves the kind as it was
  · obtain rfl := List.mem_singleton.1 hname
    have hkind : name ∉ ["kind"] := fun hmem => kind_notMem p.cell (List.mem_singleton.1 hmem ▸ hparameter)
    refine mem_usedFields.2 (.inr ⟨name, ?_, rfl⟩)
    rwa [h.parameterNames_eq hq]
    rw [Fields.values_append, Fields.values_append, Fields.values_cons_of_notMem hkind]

end Netlist.PartList
