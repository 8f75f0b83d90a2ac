/-
Writing a part list to a file. The file is opened, and by that emptied, before the limits of the parts
are checked. A list beyond the limits is refused with the failure of the check, and nothing of it is
written, but what the file held before is gone.
-/
import Netlist.Command.Run
import Netlist.Proofs.Command.Disk
import Netlist.Proofs.PartList.RoundTrip

namespace Netlist

variable {disk disk' : Disk} {place : Place} {path : String} {parts : List (Part Appearance)}

/-! ## Written lists -/

/-- A list that was written is within the limits, and the file holds its text. A device takes the text
and leaves everything as it is. -/
theorem writePartFile_eq_ok (h : writePartFile disk path parts = (disk', none)) :
    checkLimits parts = .ok () ∧
      (disk.IsDevice path ∧ disk' = disk ∨ disk'.read path = .ok (PartList.render .appearance parts)) := by
  unfold writePartFile at h
  split at h
  · cases h
  next place emptied hcreated =>
  split at h
  · cases h
  next text htext =>
  split at h
  · cases h
  next written hwritten =>
  cases h
  obtain ⟨hlimits, rfl⟩ := PartList.write_eq_ok.1 htext
  obtain ⟨hplace, hemptied⟩ := Disk.create_eq_ok.1 hcreated
  refine ⟨hlimits, ?_⟩
  rcases Disk.put_eq_ok hemptied with ⟨hstores, rfl⟩ | ⟨⟨device, hentry⟩, rfl⟩
  · -- the file is there when the text is written, at the end of the same path
    have hplace' := Disk.destination_store hstores.ne_folder hplace ""
    have hstores' := Disk.stores_store disk place ""
    cases (hstores'.put _).symm.trans hwritten
    exact Or.inr (Disk.read_store hplace' hstores' _)
  · rcases Disk.put_eq_ok hwritten with ⟨hstores, rfl⟩ | ⟨-, rfl⟩
    · exact Or.inr (Disk.read_store hplace hstores _)
    · exact Or.inl ⟨⟨place, device, hplace, hentry⟩, rfl⟩

/-- A list within the limits can be written wherever a file can be stored. -/
theorem exists_writePartFile (hplace : disk.destination path = .ok place) (hstores : disk.Stores place)
    (hlimits : checkLimits parts = .ok ()) : ∃ disk', writePartFile disk path parts = (disk', none) := by
  have hcreated := Disk.create_eq_ok.2 ⟨hplace, hstores.put ""⟩
  have hwritten := (Disk.stores_store disk place "").put (PartList.render .appearance parts)
  refine ⟨(disk.store place "").store place (PartList.render .appearance parts), ?_⟩
  simp only [writePartFile, hcreated, PartList.write_eq_ok.2 ⟨hlimits, rfl⟩, hwritten]

/-! ## Refused lists -/

theorem writePartFile_eq_error {e : Failure} (hlimits : checkLimits parts = .error e)
    (hplace : disk.destination path = .ok place) (hstores : disk.Stores place) :
    writePartFile disk path parts = (disk.store place "", some e) := by
  have hrefused : PartList.write .appearance parts = .error e := by
    rw [PartList.write, hlimits]
    rfl
  rw [writePartFile, Disk.create_eq_ok.2 ⟨hplace, hstores.put ""⟩]
  simp only [hrefused]

/-- A list beyond the limits is refused with the failure of the check, also by the command that generates
it. The file that it was meant for is empty then, and nothing else has changed: all is as it was exactly
if the file was there before and was empty. -/
theorem writePartFile_refused (hplace : disk.destination path = .ok place) (hstores : disk.Stores place)
    {e : Failure} (hlimits : checkLimits parts = .error e) :
    ∃ left : Disk, writePartFile disk path parts = (left, some e) ∧ left.read path = .ok "" ∧
      (∀ q, q ≠ place → left.entryAt? q = disk.entryAt? q) ∧
      ((∀ q, left.entryAt? q = disk.entryAt? q) ↔ disk.read path = .ok "") ∧
      ∀ (g : GenerateSettings) net, g.output = path → g.compiled = .ok net → g.placedParts net = .ok parts →
        (g.run disk).disk = left ∧ (g.run disk).failure = some e := by
  have hrefused := writePartFile_eq_error hlimits hplace hstores
  refine ⟨_, hrefused, Disk.read_store hplace hstores "", fun q hq => Disk.entryAt?_store_of_ne hq disk "",
    ⟨fun hsame => ?_, fun hempty q => ?_⟩, ?_⟩
  · rw [Disk.read_eq_ok hplace hstores, ← hsame place, Disk.entryAt?_store_self]
  · by_cases hq : q = place
    · rw [hq, (Disk.read_eq_ok hplace hstores).1 hempty, Disk.entryAt?_store_self]
    · exact Disk.entryAt?_store_of_ne hq disk ""
  · rintro g net rfl hcompiled hparts
    rw [GenerateSettings.run, hcompiled]
    simp only [hparts, hrefused, and_self]

/-- A timer that is one frame longer than the export takes. -/
def oversleeper : Part Appearance := ⟨0, .timer 41 59, [], [], false, none⟩

theorem checkLimits_oversleeper : checkLimits [oversleeper] = .error (.timerTooLong 0 2401 2400) := by decide

/-- A folder with a part list in it. -/
def shelf : Disk := ⟨[([], .folder), (["parts.json"], .file "[]\n")], [], []⟩

theorem destination_shelf : shelf.destination "parts.json" = .ok ["parts.json"] := by
  have hnames : Place.names "parts.json" = ["parts.json"] := by decide
  have hslash : "parts.json".endsWith '/' = false := by
    rw [String.endsWith_char_eq_getLast?]
    decide
  have hstart : shelf.start "parts.json" = [] := by
    unfold Disk.start
    split <;> rfl
  rw [Disk.destination, hnames, hslash]
  refine bind_eq_ok.2 ⟨[], Disk.follow_eq_ok.2 ⟨by simp, by decide, by decide, ?_⟩, by decide⟩
  rw [hstart]
  rfl

theorem entryAt?_shelf : shelf.entryAt? ["parts.json"] = some (.file "[]\n") := by decide

theorem writePartFile_refused_oversleeper : shelf.destination "parts.json" = .ok ["parts.json"] ∧
    shelf.Stores ["parts.json"] ∧ checkLimits [oversleeper] = .error (.timerTooLong 0 2401 2400) ∧
    ∃ left : Disk, writePartFile shelf "parts.json" [oversleeper] = (left, some (.timerTooLong 0 2401 2400)) ∧
      left.read "parts.json" = .ok "" := by
  have hstores : shelf.Stores ["parts.json"] := Or.inl ⟨_, entryAt?_shelf⟩
  obtain ⟨left, hrefused, hread, -⟩ := writePartFile_refused destination_shelf hstores checkLimits_oversleeper
  exact ⟨destination_shelf, hstores, checkLimits_oversleeper, left, hrefused, hread⟩

/-- The part list that a file held is lost when another one is refused. -/
theorem writePartFile_loses_shelf : shelf.read "parts.json" = .ok "[]\n" ∧
    checkLimits [oversleeper] = .error (.timerTooLong 0 2401 2400) ∧
    writePartFile shelf "parts.json" [oversleeper] =
      (⟨[(["parts.json"], .file ""), ([], .folder)], [], []⟩, some (.timerTooLong 0 2401 2400)) :=
  ⟨Disk.read_of_file destination_shelf entryAt?_shelf, checkLimits_oversleeper,
    writePartFile_eq_error checkLimits_oversleeper destination_shelf (Or.inl ⟨_, entryAt?_shelf⟩)⟩

end Netlist
