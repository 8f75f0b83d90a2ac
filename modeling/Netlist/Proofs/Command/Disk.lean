/-
Writing a file and reading it back. A file that is stored is at its place, and whatever stands at any
other place is as it was. So a path that led to the place before leads there still, and what is read
from the path that was written to is the text that was written, unless a device took it.
-/
import Netlist.Command.Disk
import Netlist.Proofs.Sequence

namespace Netlist

/-! ## Names -/

namespace Place

theorem getLast?_of_splitOn (c : Char) : ∀ {cs : List Char}, (cs.splitOn c).getLast? = some [] →
    cs = [] ∨ cs.getLast? = some c
  | [], _ => Or.inl rfl
  | x :: cs, h => by
    right
    cases hparts : cs.splitOn c with
    | nil => exact absurd hparts (List.splitOn_ne_nil c cs)
    | cons first rest =>
      have hlast : (first :: rest).getLast? = some [] → cs = [] ∨ cs.getLast? = some c := fun hlast =>
        getLast?_of_splitOn c (hparts ▸ hlast)
      rw [List.splitOn_cons_eq_if_modifyHead, hparts] at h
      split at h
      · next hx =>
        rcases hlast (by simpa using h) with rfl | hcs
        · simpa using hx
        · simp [List.getLast?_cons, hcs]
      · cases rest with
        | nil => simp at h
        | cons second rest =>
          rcases hlast (by simpa using h) with rfl | hcs
          · simp at hparts
          · simp [List.getLast?_cons, hcs]

/-- Only an empty path, or one that ends with a slash, has an empty last name. -/
theorem getLast?_names_ne {path : String} (hne : path ≠ "") (hslash : path.endsWith '/' = false) :
    (names path).getLast? ≠ some "" := by
  intro hlast
  rw [names, List.getLast?_map, Option.map_eq_some_iff] at hlast
  obtain ⟨part, hpart, hempty⟩ := hlast
  obtain rfl : part = [] := by simpa using hempty
  rw [String.endsWith_char_eq_getLast?] at hslash
  rcases getLast?_of_splitOn '/' hpart with hpath | hpath
  · exact hne (String.toList_eq_nil_iff.1 hpath)
  · simp [hpath] at hslash

end Place

namespace Disk

variable {disk disk' : Disk} {place : Place} {path text : String}

/-! ## Storing -/

theorem lookup_filter_ne {α β : Type} [BEq α] [LawfulBEq α] {a b : α} (h : b ≠ a) :
    ∀ l : List (α × β), (l.filter (·.1 != a)).lookup b = l.lookup b
  | [] => rfl
  | (k, v) :: l => by
    by_cases hk : k = a
    · rw [List.filter_cons_of_neg (by simpa using hk), List.lookup_cons, lookup_filter_ne h l,
        beq_eq_false_iff_ne.2 (hk ▸ h)]
    · rw [List.filter_cons_of_pos (by simpa using hk), List.lookup_cons, List.lookup_cons, lookup_filter_ne h l]

@[simp] theorem entryAt?_store_self (disk : Disk) (place : Place) (text : String) :
    (disk.store place text).entryAt? place = some (.file text) := by
  simp [entryAt?, store]

/-- A file that is stored changes what stands at its place only. -/
theorem entryAt?_store_of_ne {q : Place} (h : q ≠ place) (disk : Disk) (text : String) :
    (disk.store place text).entryAt? q = disk.entryAt? q := by
  rw [entryAt?, store, List.lookup_cons, beq_eq_false_iff_ne.2 h]
  exact lookup_filter_ne h disk.entries

/-- A name that leads on from a folder does so when a file was stored at another place. -/
theorem enter_store {p q : Place} {name : String} (hfile : ∀ fault, disk.entryAt? place ≠ some (.folder fault))
    (h : disk.enter p name = .ok q) (text : String) : (disk.store place text).enter p name = .ok q := by
  unfold enter at h
  split at h
  · next fault hfolder =>
    have hne : p ≠ place := fun heq => hfile fault (heq ▸ hfolder)
    rw [enter, entryAt?_store_of_ne hne, hfolder]
    exact h
  · cases h
  · cases h

theorem foldlM_enter_store (hfile : ∀ fault, disk.entryAt? place ≠ some (.folder fault)) (text : String) :
    ∀ {names : List String} {p q : Place}, names.foldlM disk.enter p = .ok q →
      names.foldlM (disk.store place text).enter p = .ok q
  | [], _, _, h => h
  | _ :: _, _, _, h => by
    obtain ⟨mid, hmid, h⟩ := bind_eq_ok.1 h
    exact bind_eq_ok.2 ⟨mid, enter_store hfile hmid text, foldlM_enter_store hfile text h⟩

/-! ## The way to a place -/

theorem follow_eq_ok {names : List String} : disk.follow path names = .ok place ↔
    path.contains '\x00' = false ∧ path ≠ "" ∧ path.utf8ByteSize ≤ maxPath ∧
      names.foldlM disk.enter (disk.start path) = .ok place := by
  unfold follow
  split
  · next hnull => simp [hnull]
  split
  · next hempty => simp [String.isEmpty_iff.1 hempty]
  split
  · next hlong => simp [Nat.not_le_of_lt hlong]
  · next hnull hempty hlong =>
    have hne : path ≠ "" := fun h => hempty (String.isEmpty_iff.2 h)
    simp [hnull, hne, Nat.le_of_not_lt hlong]

/-- A path leads to the same place as before when a file was stored. -/
theorem follow_store {names : List String} {q : Place} (hfile : ∀ fault, disk.entryAt? place ≠ some (.folder fault))
    (h : disk.follow path names = .ok q) (text : String) : (disk.store place text).follow path names = .ok q := by
  obtain ⟨hnull, hempty, hlong, hway⟩ := follow_eq_ok.1 h
  exact follow_eq_ok.2 ⟨hnull, hempty, hlong, foldlM_enter_store hfile text hway⟩

/-- A file is written where the names of its path lead to. -/
theorem follow_of_destination (h : disk.destination path = .ok place) :
    disk.follow path (Place.names path) = .ok place := by
  obtain ⟨parent, hparent, h⟩ := bind_eq_ok.1 h
  obtain ⟨found, hfound, h⟩ := bind_eq_ok.1 h
  cases hslash : path.endsWith '/' with
  | true =>
    rw [hslash] at h
    cases h
  | false =>
    rw [hslash] at hfound h
    obtain rfl : found = place := Except.ok.inj h
    obtain ⟨hnull, hempty, hlong, hway⟩ := follow_eq_ok.1 hparent
    refine follow_eq_ok.2 ⟨hnull, hempty, hlong, ?_⟩
    have hlast := Place.getLast?_names_ne hempty hslash
    rcases List.eq_nil_or_concat' (Place.names path) with hnil | ⟨init, last, hnames⟩
    · exact absurd hnil (by simp [Place.names, List.splitOn_ne_nil])
    · rw [hnames] at hway hfound hlast ⊢
      have hne : last ≠ "" := by simpa using hlast
      -- the last name is not empty, so none is dropped
      have hkeep : ((init ++ [last]).reverse.dropWhile (· == "")).reverse = init ++ [last] := by simp [hne]
      rw [hkeep, List.dropLast_concat] at hway
      rw [hkeep, List.getLastD_concat] at hfound
      rw [List.foldlM_append]
      exact bind_eq_ok.2 ⟨parent, hway, bind_eq_ok.2 ⟨_, hfound, rfl⟩⟩

/-- A way to write to a place is one to write there when a file was stored. -/
theorem destination_store {q : Place} (hfile : ∀ fault, disk.entryAt? place ≠ some (.folder fault))
    (h : disk.destination path = .ok q) (text : String) : (disk.store place text).destination path = .ok q := by
  obtain ⟨parent, hparent, h⟩ := bind_eq_ok.1 h
  obtain ⟨found, hfound, h⟩ := bind_eq_ok.1 h
  exact bind_eq_ok.2 ⟨parent, follow_store hfile hparent text, bind_eq_ok.2 ⟨found, enter_store hfile hfound text, h⟩⟩

/-! ## Writing -/

/-- A place where a file can be stored: one is there, or a folder that takes files and nothing in it
by that name. -/
def Stores (disk : Disk) (place : Place) : Prop :=
  (∃ old, disk.entryAt? place = some (.file old)) ∨
    disk.entryAt? place = none ∧ disk.creationFault? place = none

theorem Stores.ne_folder (h : disk.Stores place) (fault : Option FileFault) :
    disk.entryAt? place ≠ some (.folder fault) := by
  rcases h with ⟨old, h⟩ | ⟨h, -⟩ <;> simp [h]

theorem Stores.put (h : disk.Stores place) (text : String) : disk.put place text = .ok (disk.store place text) := by
  unfold Disk.put
  rcases h with ⟨old, h⟩ | ⟨h, hfolder⟩
  · rw [h]
  · rw [h, hfolder]

/-- What a text can be put to: a place that stores it, or a device, which leaves everything as it is. -/
theorem put_eq_ok (h : disk.put place text = .ok disk') :
    disk.Stores place ∧ disk' = disk.store place text ∨
      (∃ device, disk.entryAt? place = some (.device device)) ∧ disk' = disk := by
  unfold put at h
  split at h
  · cases h
  · next old hentry =>
    cases h
    exact Or.inl ⟨Or.inl ⟨old, hentry⟩, rfl⟩
  · next device hentry =>
    split at h
    · cases h
    · cases h
      exact Or.inr ⟨⟨device, hentry⟩, rfl⟩
  · cases h
  · next hentry =>
    split at h
    · cases h
    · next hfault =>
      cases h
      exact Or.inl ⟨Or.inr ⟨hentry, hfault⟩, rfl⟩

/-- A path that leads to a device. -/
def IsDevice (disk : Disk) (path : String) : Prop :=
  ∃ place device, disk.destination path = .ok place ∧ disk.entryAt? place = some (.device device)

theorem stores_store (disk : Disk) (place : Place) (text : String) : (disk.store place text).Stores place :=
  Or.inl ⟨text, entryAt?_store_self ..⟩

theorem create_eq_ok : disk.create path = .ok (place, disk') ↔
    disk.destination path = .ok place ∧ disk.put place "" = .ok disk' := by
  constructor
  · intro h
    obtain ⟨found, hplace, h⟩ := bind_eq_ok.1 h
    obtain ⟨opened, hput, h⟩ := bind_eq_ok.1 h
    cases h
    exact ⟨hplace, hput⟩
  · rintro ⟨hplace, hput⟩
    exact bind_eq_ok.2 ⟨place, hplace, bind_eq_ok.2 ⟨disk', hput, rfl⟩⟩

/-! ## Reading -/

theorem read_of_file (hplace : disk.destination path = .ok place) (h : disk.entryAt? place = some (.file text)) :
    disk.read path = .ok text := by
  refine bind_eq_ok.2 ⟨place, follow_of_destination hplace, ?_⟩
  rw [h]
  rfl

theorem read_eq_ok (hplace : disk.destination path = .ok place) (hstores : disk.Stores place) :
    disk.read path = .ok text ↔ disk.entryAt? place = some (.file text) := by
  refine ⟨fun h => ?_, read_of_file hplace⟩
  obtain ⟨found, hfound, h⟩ := bind_eq_ok.1 h
  cases (follow_of_destination hplace).symm.trans hfound
  rcases hstores with ⟨old, hentry⟩ | ⟨hentry, -⟩
  · rw [hentry] at h ⊢
    cases h
    rfl
  · rw [hentry] at h
    cases h

/-- The text that was stored is read back from the path that it was written to. -/
theorem read_store (hplace : disk.destination path = .ok place) (h : disk.Stores place) (text : String) :
    (disk.store place text).read path = .ok text :=
  read_of_file (destination_store h.ne_folder hplace text) (entryAt?_store_self ..)

end Disk

end Netlist
