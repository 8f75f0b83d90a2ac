/-
What placing parts leaves of them. Positions have 32 bits, there is one for each part, and a part that
is moved keeps everything but its payload, which no simulator looks at.
-/
import Netlist.Part.Placement
import Netlist.Proofs.PartList.RoundTrip
import Netlist.Proofs.Simulator.Layout

namespace Netlist

variable {P : Type}

/-! ## Positions -/

/-- The coordinates of a position have 32 bits. -/
def FitsPosition (pos : Int × Int × Int) : Prop :=
  fitsCoordinate pos.1 = true ∧ fitsCoordinate pos.2.1 = true ∧ fitsCoordinate pos.2.2 = true

namespace Placement

/-- The spacing of a placement has 32 bits. -/
def Fits : Placement → Prop
  | origin => True
  | linear spacing => fitsCoordinate spacing = true

theorem fits_linearFrom {spacing : Int} (hspacing : fitsCoordinate spacing = true) : ∀ {pinned : List Bool}
    {plain marked : Nat} {positions : List (Int × Int × Int)},
    linearFrom spacing plain marked pinned = .ok positions →
    positions.length = pinned.length ∧ ∀ pos ∈ positions, FitsPosition pos
  | [], _, _, _, h => by
    cases h
    exact ⟨rfl, fun pos hpos => by cases hpos⟩
  | true :: pinned, plain, marked, positions, h => by
    simp only [linearFrom] at h
    split at h
    · cases h
    · next hfits =>
      obtain ⟨rest, hrest, h⟩ := bind_eq_ok.1 h
      cases h
      obtain ⟨hlength, hall⟩ := fits_linearFrom hspacing hrest
      refine ⟨congrArg (· + 1) hlength, List.forall_mem_cons.2 ⟨⟨?_, hspacing, rfl⟩, hall⟩⟩
      simpa using hfits
  | false :: pinned, plain, marked, positions, h => by
    simp only [linearFrom] at h
    split at h
    · cases h
    · next hfits =>
      obtain ⟨rest, hrest, h⟩ := bind_eq_ok.1 h
      cases h
      obtain ⟨hlength, hall⟩ := fits_linearFrom hspacing hrest
      refine ⟨congrArg (· + 1) hlength, List.forall_mem_cons.2 ⟨⟨?_, rfl, rfl⟩, hall⟩⟩
      simpa using hfits

theorem fits_positions {placement : Placement} (h : placement.Fits) {pinned : List Bool}
    {positions : List (Int × Int × Int)} (h' : placement.positions pinned = .ok positions) :
    positions.length = pinned.length ∧ ∀ pos ∈ positions, FitsPosition pos := by
  cases placement with
  | origin =>
    cases h'
    refine ⟨List.length_map .., fun pos hpos => ?_⟩
    obtain ⟨_, -, rfl⟩ := List.mem_map.1 hpos
    exact ⟨rfl, rfl, rfl⟩
  | linear spacing => exact fits_linearFrom h h'

end Placement

/-! ## Moved parts -/

/-- A part at a new position. -/
def Part.Moved (p q : Part Appearance) : Prop := ∃ pos, FitsPosition pos ∧ q = p.moveTo pos

theorem moved_place {placement : Placement} (h : placement.Fits) {parts placed : List (Part Appearance)}
    (h' : place parts placement = .ok placed) : List.Forall₂ Part.Moved parts placed := by
  obtain ⟨positions, hpositions, heq⟩ := bind_eq_ok.1 h'
  cases heq
  obtain ⟨hlength, hfits⟩ := Placement.fits_positions h hpositions
  rw [List.length_map] at hlength
  clear hpositions h'
  induction parts generalizing positions with
  | nil => exact .nil
  | cons p parts ih =>
    cases positions with
    | nil => cases hlength
    | cons pos positions =>
      have hpos := hfits pos (List.mem_cons_self ..)
      exact .cons ⟨pos, hpos, rfl⟩
        (ih positions (by simpa using hlength) fun q hq => hfits q (List.mem_cons_of_mem _ hq))

/-- A part without a look gets the default one. -/
theorem Part.Moved.appearance_fits {p q : Part Appearance} (h : p.Moved q) (hp : p.payload = none) :
    ∀ a, q.payload = some a → a.Fits := by
  obtain ⟨pos, ⟨hx, hy, hz⟩, rfl⟩ := h
  intro a ha
  rw [moveTo, hp] at ha
  cases ha
  simp only [fitsCoordinate, Bool.and_eq_true, decide_eq_true_eq] at hx hy hz
  simp only [Appearance.Fits, List.forall_mem_cons, List.not_mem_nil, false_implies, implies_true, and_true]
  exact ⟨hx, hy, hz, by decide, by decide⟩

/-! ## Parts without payloads -/

/-- A part without its payload. -/
def Part.bare (p : Part P) : Part Unit := { p with payload := none }

theorem map_bare_of_moved {parts placed : List (Part Appearance)} (h : List.Forall₂ Part.Moved parts placed) :
    placed.map Part.bare = parts.map Part.bare := by
  induction h with
  | nil => rfl
  | cons hmoved _ ih =>
    obtain ⟨pos, -, rfl⟩ := hmoved
    rw [List.map_cons, List.map_cons, ih]
    rfl

namespace Simulator

/-- A simulator looks at no payload. -/
theorem ofParts_map_bare (parts : List (Part P)) (o : SimulatorOptions) :
    ofParts (parts.map Part.bare) o = ofParts parts o := by
  have hlayout : Layout.ofParts (parts.map Part.bare) = Layout.ofParts parts := by
    simp [Layout.ofParts, Part.bare, List.zipIdx_map, List.filter_map, Function.comp_def, List.flatMap_map]
  have hchecks : (parts.map Part.bare).zipIdx.forM (checkPart (parts.map Part.bare).length) =
      parts.zipIdx.forM (checkPart parts.length) := by
    rw [List.zipIdx_map, List.length_map]
    exact List.forM_map
  rw [ofParts, ofParts, hlayout, hchecks]

theorem ofParts_of_moved {parts placed : List (Part Appearance)} (h : List.Forall₂ Part.Moved parts placed)
    (o : SimulatorOptions) : ofParts placed o = ofParts parts o := by
  rw [← ofParts_map_bare, map_bare_of_moved h, ofParts_map_bare]

end Simulator

end Netlist
