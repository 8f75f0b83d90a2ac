/-
Generating never meets the limits of the export. Every generator makes networks whose parts are within
them, however the network is compiled and its parts are placed, if a random network is asked for no more
inputs than a part may have. What is left to fail is a position that does not fit and the file.
-/
import Netlist.Proofs.Command.Export
import Netlist.Proofs.Generate.Limits
import Netlist.Proofs.Part.Rows

namespace Netlist

/-! ## Files -/

/-- Whether a failure is about a file and not about the parts in it. -/
def Failure.IsOfFile (e : Failure) : Prop := e = .malformed ∨ ∃ fault, e = .file fault

theorem Device.isOfFile_refusal {device : Device} {text : String} {e : Failure}
    (h : device.refusal? text = some e) : e.IsOfFile := by
  unfold refusal? at h
  split at h
  · cases h
  · next fault _ =>
    split_ifs at h
    · cases h
      exact .inl rfl
    · cases h
      exact .inr ⟨fault, rfl⟩

namespace Disk

variable {disk : Disk} {path text : String} {e : Failure}

theorem isOfFile_enter {place : Place} {name : String} (h : disk.enter place name = .error e) : e.IsOfFile := by
  unfold enter at h
  split at h
  · split at h
    · cases h
      exact .inr ⟨_, rfl⟩
    · cases h
  · cases h
    exact .inr ⟨_, rfl⟩
  · cases h
    exact .inr ⟨_, rfl⟩

theorem isOfFile_follow {names : List String} (h : disk.follow path names = .error e) : e.IsOfFile := by
  unfold follow at h
  split_ifs at h
  · cases h
    exact .inr ⟨_, rfl⟩
  · cases h
    exact .inr ⟨_, rfl⟩
  · cases h
    exact .inr ⟨_, rfl⟩
  · obtain ⟨place, name, hname⟩ := exists_of_foldlM_eq_error h
    exact isOfFile_enter hname

theorem isOfFile_destination (h : disk.destination path = .error e) : e.IsOfFile := by
  unfold destination at h
  rcases bind_eq_error.1 h with h | ⟨parent, -, h⟩
  · exact isOfFile_follow h
  rcases bind_eq_error.1 h with h | ⟨place, -, h⟩
  · exact isOfFile_enter h
  split_ifs at h
  · cases h
    exact .inr ⟨_, rfl⟩
  · cases h

theorem isOfFile_put {place : Place} (h : disk.put place text = .error e) : e.IsOfFile := by
  unfold put at h
  split at h
  · cases h
    exact .inr ⟨_, rfl⟩
  · cases h
  · split at h
    · next hrefused =>
      cases h
      exact Device.isOfFile_refusal hrefused
    · cases h
  · cases h
    exact .inr ⟨_, rfl⟩
  · split at h
    · cases h
      exact .inr ⟨_, rfl⟩
    · cases h

theorem isOfFile_create (h : disk.create path = .error e) : e.IsOfFile := by
  rcases bind_eq_error.1 h with h | ⟨place, -, h⟩
  · exact isOfFile_destination h
  rcases bind_eq_error.1 h with h | ⟨emptied, -, h⟩
  · exact isOfFile_put h
  · cases h

end Disk

/-- A list within the limits is only refused by the file. -/
theorem isOfFile_writePartFile {disk disk' : Disk} {path : String} {parts : List (Part Appearance)} {e : Failure}
    (hlimits : checkLimits parts = .ok ()) (h : writePartFile disk path parts = (disk', some e)) : e.IsOfFile := by
  rw [writePartFile, PartList.write_eq_ok.2 ⟨hlimits, rfl⟩] at h
  cases hcreated : disk.create path with
  | error e' =>
    rw [hcreated] at h
    cases h
    exact Disk.isOfFile_create hcreated
  | ok opened =>
    cases hwritten : opened.2.put opened.1 (PartList.render .appearance parts) with
    | error e' =>
      simp only [hcreated, hwritten, Prod.mk.injEq, Option.some.injEq] at h
      exact h.2 ▸ Disk.isOfFile_put hwritten
    | ok written => simp [hcreated, hwritten] at h

/-! ## Places -/

/-- Placed parts are within the limits if they were before. -/
theorem checkLimits_place {parts placed : List (Part Appearance)} {placement : Placement}
    (hlimits : checkLimits parts = .ok ()) (h : place parts placement = .ok placed) : checkLimits placed = .ok () := by
  obtain ⟨positions, -, h⟩ := bind_eq_ok.1 h
  cases h
  refine checkLimits_eq_ok.2 fun q hq => ?_
  rw [← List.map_uncurry_zip_eq_zipWith] at hq
  obtain ⟨⟨p, pos⟩, hp, rfl⟩ := List.mem_map.1 hq
  exact checkLimits_eq_ok.1 hlimits p (List.of_mem_zip hp).1

theorem place_eq_error {parts : List (Part Appearance)} {placement : Placement} {e : Failure}
    (h : place parts placement = .error e) : e = .overflow := by
  cases placement with
  | origin => cases h
  | linear spacing => exact place_linear_eq_error h

/-! ## Generating -/

namespace GenerateSettings

variable {g : GenerateSettings}

theorem exists_network (hfanin : g.kind = .random → g.maxFanin ≤ maxInputs) :
    ∃ net, g.network = .ok net ∧ net.Exportable := by
  unfold network
  split
  · exact Generate.exists_chain Appearance (Nat.le_max_right ..) g.mode
  · exact Generate.exists_mesh Appearance (Nat.le_max_right ..)
  · exact Generate.exists_rippleCarry Appearance g.size
  · next hkind =>
    obtain ⟨net, hnet, hdrawn⟩ := Generate.exists_randomFrom Appearance Generate.Xoshiro.source_inRange
      (Generate.Xoshiro.ofSeed g.seed) (Nat.le_max_right g.size 1) (Nat.le_max_right g.maxFanin 1)
    exact ⟨net, hnet, hdrawn.exportable (Nat.max_le.2 ⟨hfanin hkind, by decide⟩)⟩

/-- The parts that a run writes are within the limits. -/
theorem exists_parts (hfanin : g.kind = .random → g.maxFanin ≤ maxInputs) : ∃ net parts,
    g.compiled = .ok net ∧ net.parts = .ok parts ∧ checkLimits parts = .ok () := by
  obtain ⟨net, hnet, hexportable⟩ := exists_network hfanin
  obtain ⟨compiled, parts, hcompiled, hparts, hlimits, -⟩ := hexportable g.compileOptions
  exact ⟨compiled, parts, bind_eq_ok.2 ⟨net, hnet, hcompiled⟩, hparts, hlimits⟩

/-- A run only fails for a position or for the file. -/
theorem run_eq_error (hfanin : g.kind = .random → g.maxFanin ≤ maxInputs) {disk : Disk} {e : Failure}
    (h : (g.run disk).failure = some e) : e = .overflow ∨ e.IsOfFile := by
  obtain ⟨net, parts, hcompiled, hparts, hlimits⟩ := exists_parts hfanin
  have hplacedParts : g.placedParts net = place parts g.partPlacement := by
    rw [placedParts, hparts]
    rfl
  simp only [run, hcompiled, hplacedParts] at h
  cases hplaced : place parts g.partPlacement with
  | error e' =>
    simp only [hplaced, Option.some.injEq] at h
    exact .inl (h ▸ place_eq_error hplaced)
  | ok placed =>
    rcases hwritten : writePartFile disk g.output placed with ⟨written, _ | e'⟩
    · simp [hplaced, hwritten] at h
    · simp only [hplaced, hwritten, Option.some.injEq] at h
      exact .inr (h ▸ isOfFile_writePartFile (checkLimits_place hlimits hplaced) hwritten)

end GenerateSettings

namespace Generate

variable {σ : Type}

/-- Whatever is drawn, a random network has its leaves and a root, its inputs are gates without sources,
each other leaf has from one to `maxFanin` of them, exactly the first and the last leaves are pinned, and no
timer is longer than three frames. Its parts, like those of a chain, a mesh or an adder, are within the
limits of the export and make a simulator, however it is compiled, so that `generate` only fails for a
position that does not fit or for the file. -/
theorem generated_within_limits (P : Type) {src : Source σ} (hsrc : src.InRange) (state : σ) {len maxFanin : Nat}
    (hlen : 0 < len) (hfanin : 0 < maxFanin) :
    (∃ net : Network P, randomFrom P src state len maxFanin = .ok net ∧ Drawn len maxFanin net ∧
      (maxFanin ≤ maxInputs → net.Exportable)) ∧
    (∀ size mode, 0 < size → ∃ net : Network P, chain P size mode = .ok net ∧ net.Exportable) ∧
    (∀ size, 2 ≤ size → ∃ net : Network P, mesh P size = .ok net ∧ net.Exportable) ∧
    (∀ size, ∃ net : Network P, rippleCarry P size = .ok net ∧ net.Exportable) ∧
    ∀ g : GenerateSettings, (g.kind = .random → g.maxFanin ≤ maxInputs) →
      (∃ net parts, g.compiled = .ok net ∧ net.parts = .ok parts ∧ checkLimits parts = .ok ()) ∧
      ∀ disk e, (g.run disk).failure = some e → e = .overflow ∨ e.IsOfFile := by
  obtain ⟨net, hnet, hdrawn⟩ := exists_randomFrom P hsrc state hlen hfanin
  refine ⟨⟨net, hnet, hdrawn, hdrawn.exportable⟩, fun size mode hsize => exists_chain P hsize mode,
    fun size hsize => exists_mesh P hsize, exists_rippleCarry P, fun g hg => ?_⟩
  exact ⟨g.exists_parts hg, fun disk e he => g.run_eq_error hg he⟩

/-- A source that makes every leaf behind the inputs a timer, and every edge one from the last leaf. -/
def lastSource : Source Unit := ⟨pure true, fun bound => pure (bound - 1), fun bound => pure (bound - 1)⟩

theorem lastSource_inRange : lastSource.InRange :=
  ⟨fun _ _ h => Nat.sub_lt h Nat.one_pos, fun _ _ h => Nat.sub_lt h Nat.one_pos⟩

/-- The last leaf has as many edges from itself as a part may have inputs. -/
theorem generated_within_limits_last : lastSource.InRange ∧ 0 < 2 ∧ 0 < maxInputs ∧
    ∃ net : Network Unit, randomFrom Unit lastSource () 2 maxInputs = .ok net ∧ Drawn 2 maxInputs net ∧
      net.Exportable := by
  obtain ⟨⟨net, hnet, hdrawn, hexportable⟩, -⟩ :=
    generated_within_limits Unit lastSource_inRange () (show 0 < 2 by decide) (show 0 < maxInputs by decide)
  exact ⟨lastSource_inRange, by decide, by decide, net, hnet, hdrawn, hexportable (Nat.le_refl _)⟩

end Generate

end Netlist
