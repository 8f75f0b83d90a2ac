/-
The linear placement told by ranks. The rank of a part is the number of earlier parts in its row, which
is what the running count of the row holds when the placement comes to the part. So the parts of a row
stand at the multiples of the spacing in order, the two rows lie apart, and a placement depends on
nothing that a placement changes.
-/
import Mathlib.Tactic
import Netlist.Proofs.Part.Placement

namespace Netlist

variable {P : Type}

/-! ## Counts of a row -/

theorem forall_getElem?_cons {α : Type} {a : α} {l : List α} {p : Nat → α → Prop} :
    (∀ i b, (a :: l)[i]? = some b → p i b) ↔ p 0 a ∧ ∀ i b, l[i]? = some b → p (i + 1) b := by
  constructor
  · intro h
    exact ⟨h 0 a rfl, fun i b hb => h (i + 1) b hb⟩
  · rintro ⟨hfirst, hrest⟩ (_ | i) b hb
    · cases hb
      exact hfirst
    · exact hrest i b hb

namespace Placement

/-- The counts of both rows behind one more part. -/
def counted (n : Bool → Nat) (flag : Bool) : Bool → Nat := fun row => n row + [flag].count row

/-- The position in a row, which lies at the spacing for pinned parts and at zero for the others. -/
def inRow (spacing : Int) (flag : Bool) (count : Nat) : Int × Int × Int :=
  (count * spacing, if flag then spacing else 0, 0)

theorem counted_add (n : Bool → Nat) (flag row : Bool) (flags : List Bool) (i : Nat) :
    counted n flag row + (flags.take i).count row = n row + ((flag :: flags).take (i + 1)).count row := by
  rw [counted, List.take_succ_cons, List.count_cons, List.count_cons, List.count_nil]
  omega

variable {spacing : Int}

theorem linearFrom_cons (n : Bool → Nat) (flag : Bool) (flags : List Bool) :
    linearFrom spacing (n false) (n true) (flag :: flags) = (do
      if !fitsCoordinate (n flag * spacing) then throw .overflow
      return inRow spacing flag (n flag) ::
        (← linearFrom spacing (counted n flag false) (counted n flag true) flags)) := by
  cases flag <;> rfl

/-- A placement succeeds if all products fit, and then the count of each part is the one at the start
and the number of parts in its row since then. -/
theorem linearFrom_eq_ok {flags : List Bool} {n : Bool → Nat} {positions : List (Int × Int × Int)} :
    linearFrom spacing (n false) (n true) flags = .ok positions ↔
      (∀ i flag, flags[i]? = some flag →
        fitsCoordinate ((n flag + (flags.take i).count flag : Nat) * spacing) = true) ∧
      positions = flags.mapIdx fun i flag => inRow spacing flag (n flag + (flags.take i).count flag) := by
  induction flags generalizing n positions with
  | nil =>
    constructor
    · intro h
      cases h
      exact ⟨fun i flag hi => by simp at hi, rfl⟩
    · rintro ⟨-, rfl⟩
      rfl
  | cons flag flags ih =>
    rw [linearFrom_cons, forall_getElem?_cons, List.mapIdx_cons]
    simp only [← counted_add, List.take_zero, List.count_nil, Nat.add_zero]
    by_cases hfits : fitsCoordinate (n flag * spacing) = true
    · simp only [hfits, Bool.not_true, Bool.false_eq_true, if_false, true_and]
      constructor
      · intro h
        obtain ⟨rest, hrest, h⟩ := bind_eq_ok.1 h
        cases h
        obtain ⟨hall, rfl⟩ := ih.1 hrest
        exact ⟨hall, rfl⟩
      · rintro ⟨hall, rfl⟩
        exact bind_eq_ok.2 ⟨_, ih.2 ⟨hall, rfl⟩, rfl⟩
    · constructor
      · intro h
        rw [Bool.not_eq_true] at hfits
        simp only [hfits, Bool.not_false, if_true] at h
        cases h
      · rintro ⟨⟨hfirst, -⟩, -⟩
        exact absurd hfirst hfits

theorem linearFrom_eq_error {flags : List Bool} {n : Bool → Nat} {e : Failure}
    (h : linearFrom spacing (n false) (n true) flags = .error e) : e = .overflow := by
  induction flags generalizing n with
  | nil => cases h
  | cons flag flags ih =>
    rw [linearFrom_cons] at h
    split at h
    · cases h
      rfl
    · cases hrest : linearFrom spacing (counted n flag false) (counted n flag true) flags with
      | error e' =>
        rw [hrest] at h
        cases h
        exact ih hrest
      | ok rest =>
        rw [hrest] at h
        cases h

end Placement

/-! ## Ranks -/

/-- The number of parts before a position that are in the row of a part. -/
def rank (parts : List (Part P)) (i : Nat) (p : Part P) : Nat := (parts.take i).countP (·.pinned == p.pinned)

theorem count_take_map_pinned (parts : List (Part P)) (i : Nat) (p : Part P) :
    ((parts.map (·.pinned)).take i).count p.pinned = rank parts i p := by
  rw [← List.map_take, List.count, List.countP_map]
  rfl

theorem rank_le (parts : List (Part P)) (i : Nat) (p : Part P) : rank parts i p ≤ i :=
  List.countP_le_length.trans (List.length_take_le i parts)

/-- Two parts of one row have different ranks, because the later one counts the earlier one. -/
theorem rank_lt_rank {parts : List (Part P)} {i j : Nat} {p q : Part P} (hij : i < j) (hp : parts[i]? = some p)
    (hpq : p.pinned = q.pinned) : rank parts i p < rank parts j q := by
  have hstep : rank parts (i + 1) q = rank parts i p + 1 := by
    rw [rank, rank, List.take_add_one, hp, Option.toList_some, List.countP_append, hpq]
    simp [hpq]
  have hsub : (parts.take (i + 1)).Sublist (parts.take j) := (List.take_prefix_take_left hij).sublist
  have hmono : rank parts (i + 1) q ≤ rank parts j q := hsub.countP_le
  omega

/-! ## Placed parts -/

variable {parts placed : List (Part Appearance)} {placement : Placement} {spacing : Int}

theorem zipWith_moveTo_mapIdx (parts : List (Part Appearance)) (f : Nat → Bool → Int × Int × Int) :
    parts.zipWith Part.moveTo ((parts.map (·.pinned)).mapIdx f) = parts.mapIdx fun i p => p.moveTo (f i p.pinned) := by
  refine List.ext_getElem? fun i => ?_
  simp only [List.getElem?_zipWith, List.getElem?_mapIdx, List.getElem?_map]
  cases parts[i]? <;> rfl

/-- A linear placement succeeds if the product of each rank and the spacing fits, and moves each part to
the place of its rank. -/
theorem place_linear_eq_ok : place parts (.linear spacing) = .ok placed ↔
    (∀ i p, parts[i]? = some p → fitsCoordinate (rank parts i p * spacing) = true) ∧
    placed = parts.mapIdx fun i p => p.moveTo (Placement.inRow spacing p.pinned (rank parts i p)) := by
  have hpositions (positions : List (Int × Int × Int)) :
      (Placement.linear spacing).positions (parts.map (·.pinned)) = .ok positions ↔
        (∀ i p, parts[i]? = some p → fitsCoordinate (rank parts i p * spacing) = true) ∧
        positions = (parts.map (·.pinned)).mapIdx fun i flag =>
          Placement.inRow spacing flag (((parts.map (·.pinned)).take i).count flag) := by
    rw [Placement.positions, Placement.linearFrom_eq_ok (n := fun _ => 0)]
    simp only [Nat.zero_add, List.getElem?_map, Option.map_eq_some_iff, forall_exists_index, and_imp,
      forall_apply_eq_imp_iff₂, count_take_map_pinned]
  rw [place, bind_eq_ok]
  simp only [hpositions]
  constructor
  · rintro ⟨_, ⟨hfits, rfl⟩, h⟩
    cases h
    refine ⟨hfits, (zipWith_moveTo_mapIdx ..).trans ?_⟩
    simp only [count_take_map_pinned]
  · rintro ⟨hfits, rfl⟩
    refine ⟨_, ⟨hfits, rfl⟩, congrArg Except.ok ((zipWith_moveTo_mapIdx ..).trans ?_)⟩
    simp only [count_take_map_pinned]

theorem place_linear_eq_error {e : Failure} (h : place parts (.linear spacing) = .error e) : e = .overflow := by
  cases hpositions : (Placement.linear spacing).positions (parts.map (·.pinned)) with
  | error e' =>
    rw [place, hpositions] at h
    cases h
    exact Placement.linearFrom_eq_error (n := fun _ => 0) hpositions
  | ok positions =>
    rw [place, hpositions] at h
    cases h

/-! ## Placing in place -/

/-- Moves parts to the given positions, each at its index. -/
def moveAll (positions : List ((Int × Int × Int) × Nat)) : ExceptT Failure (StateM (List (Part Appearance))) Unit :=
  positions.forM fun x => modify (·.modify x.2 (·.moveTo x.1))

/-- The parts behind those that are in their places already are moved to theirs. -/
theorem run_moveAll : ∀ (done : List (Part Appearance)) {positions : List (Int × Int × Int)}
    {rest : List (Part Appearance)}, positions.length = rest.length →
    (moveAll (positions.zipIdx done.length)).run.run (done ++ rest) =
      (.ok (), done ++ rest.zipWith Part.moveTo positions)
  | done, [], rest, h => by
    rw [List.length_eq_zero_iff.1 h.symm]
    rfl
  | done, pos :: positions, [], h => by cases h
  | done, pos :: positions, p :: rest, h => by
    have hmove : (done ++ p :: rest).modify done.length (·.moveTo pos) = done ++ p.moveTo pos :: rest :=
      List.modifyTailIdx_add (List.modifyHead (Part.moveTo · pos)) 0 done (p :: rest)
    have hfirst : (moveAll ((pos :: positions).zipIdx done.length)).run.run (done ++ p :: rest) =
      (moveAll (positions.zipIdx (done.length + 1))).run.run
        ((done ++ p :: rest).modify done.length (·.moveTo pos)) := rfl
    have hrest := run_moveAll (done ++ [p.moveTo pos]) (Nat.succ.inj h)
    rw [List.length_append, List.length_singleton, List.append_assoc, List.append_assoc] at hrest
    rw [hfirst, hmove]
    exact hrest

/-- Places the parts of a list where they stand. All positions are computed before the first part is
moved, and the list is what it has become also after a failure. -/
def placeInPlace (placement : Placement) : ExceptT Failure (StateM (List (Part Appearance))) Unit := do
  let parts ← get
  let positions ← MonadExcept.ofExcept (placement.positions (parts.map (·.pinned)))
  moveAll positions.zipIdx

/-- The positions are computed with the list as it is. -/
theorem run_placeInPlace {positions : Except Failure (List (Int × Int × Int))}
    (h : placement.positions (parts.map (·.pinned)) = positions) : (placeInPlace placement).run.run parts =
      (do moveAll (← MonadExcept.ofExcept positions).zipIdx :
        ExceptT Failure (StateM (List (Part Appearance))) Unit).run.run parts := by
  subst h
  rfl

/-- A list that is placed in place becomes what placing it gives. -/
theorem placeInPlace_of_eq_ok (hplacement : placement.Fits) (h : place parts placement = .ok placed) :
    (placeInPlace placement).run.run parts = (.ok (), placed) := by
  obtain ⟨positions, hpositions, h⟩ := bind_eq_ok.1 h
  cases h
  have hlength := (Placement.fits_positions hplacement hpositions).1
  rw [List.length_map] at hlength
  exact (run_placeInPlace hpositions).trans (run_moveAll [] hlength)

/-- A failure comes before the first part is moved. -/
theorem placeInPlace_of_eq_error {e : Failure} (h : place parts placement = .error e) :
    (placeInPlace placement).run.run parts = (.error e, parts) := by
  cases hpositions : placement.positions (parts.map (·.pinned)) with
  | error e' =>
    rw [place, hpositions] at h
    cases h
    exact run_placeInPlace hpositions
  | ok positions =>
    rw [place, hpositions] at h
    cases h

/-! ## Two rows -/

/-- A linear placement of parts whose ranks all fit gives every part the place of its rank and changes
nothing else. -/
theorem getElem?_place_linear (h : place parts (.linear spacing) = .ok placed) {i : Nat} {p : Part Appearance}
    (hp : parts[i]? = some p) :
    placed[i]? = some (p.moveTo (Placement.inRow spacing p.pinned (rank parts i p))) := by
  obtain ⟨-, rfl⟩ := place_linear_eq_ok.1 h
  rw [List.getElem?_mapIdx, hp]
  rfl

/-- Ranks only look at the pins. -/
theorem rank_congr {parts parts' : List (Part P)} (h : parts'.map (·.pinned) = parts.map (·.pinned)) {p p' : Part P}
    (hp : p'.pinned = p.pinned) (i : Nat) : rank parts' i p' = rank parts i p := by
  rw [← count_take_map_pinned, ← count_take_map_pinned, h, hp]

/-- A placement finds the same ranks in a list that it has placed. -/
theorem rank_place_linear (h : place parts (.linear spacing) = .ok placed) (i : Nat) (p : Part Appearance)
    (pos : Int × Int × Int) : rank placed i (p.moveTo pos) = rank parts i p := by
  refine rank_congr ?_ rfl i
  obtain ⟨-, rfl⟩ := place_linear_eq_ok.1 h
  refine List.ext_getElem? fun i => ?_
  simp only [List.getElem?_map, List.getElem?_mapIdx]
  cases parts[i]? <;> rfl

theorem place_linear_place (h : place parts (.linear spacing) = .ok placed) :
    place placed (.linear spacing) = .ok placed := by
  have hrank := rank_place_linear h
  obtain ⟨hfits, rfl⟩ := place_linear_eq_ok.1 h
  refine place_linear_eq_ok.2 ⟨fun i q hq => ?_, ?_⟩
  · rw [List.getElem?_mapIdx, Option.map_eq_some_iff] at hq
    obtain ⟨p, hp, rfl⟩ := hq
    rw [hrank]
    exact hfits i p hp
  · rw [List.mapIdx_mapIdx]
    refine congrArg (List.mapIdx · parts) (funext fun i => funext fun p => ?_)
    rw [Function.comp_apply, hrank]
    rfl

/-- Places in two rows tell the row and the rank, unless the spacing is zero. -/
theorem Placement.inRow_inj (hspacing : spacing ≠ 0) {flag flag' : Bool} {n n' : Nat} :
    inRow spacing flag n = inRow spacing flag' n' ↔ flag = flag' ∧ n = n' := by
  constructor
  · intro h
    simp only [inRow, Prod.mk.injEq, and_true] at h
    obtain ⟨hx, hy⟩ := h
    have hn : (n : Int) = n' := mul_right_cancel₀ hspacing hx
    refine ⟨?_, by exact_mod_cast hn⟩
    cases flag <;> cases flag' <;> simp_all
  · rintro ⟨rfl, rfl⟩
    rfl

theorem rank_ne_rank {parts : List (Part P)} {i j : Nat} {p q : Part P} (hij : i ≠ j) (hp : parts[i]? = some p)
    (hq : parts[j]? = some q) (hpq : p.pinned = q.pinned) : rank parts i p ≠ rank parts j q := by
  rcases Nat.lt_or_gt_of_ne hij with hlt | hlt
  · exact Nat.ne_of_lt (rank_lt_rank hlt hp hpq)
  · exact Nat.ne_of_gt (rank_lt_rank hlt hq hpq.symm)

/-- Where a part stands, if it has a look. -/
def Part.position? (p : Part Appearance) : Option (Int × Int × Int) := p.payload.map (·.pos)

/-- A linear placement with a spacing of 32 bits fails exactly if the product of some rank and the
spacing does not fit 32 bits; the failure is an overflow, and the list is as it was. Otherwise no count
of a row overflows, every part moves to the place of its rank in its row, with the default look if it
had none, and nothing else of it changes; no two parts stand at one place unless the spacing is zero,
and a second placement changes nothing. -/
theorem place_in_rows (parts : List (Part Appearance)) (hsize : parts.length < 0x80000000)
    (hspacing : fitsCoordinate spacing = true) :
    (place parts (.linear spacing) = .error .overflow ↔
      ∃ i p, parts[i]? = some p ∧ fitsCoordinate (rank parts i p * spacing) = false) ∧
    (∀ e, place parts (.linear spacing) = .error e → e = .overflow ∧
      (placeInPlace (.linear spacing)).run.run parts = (.error .overflow, parts)) ∧
    ∀ placed, place parts (.linear spacing) = .ok placed →
      (placeInPlace (.linear spacing)).run.run parts = (.ok (), placed) ∧
      placed.length = parts.length ∧
      (∀ i p, parts[i]? = some p → rank parts i p + 1 < 0x80000000 ∧
        FitsPosition (rank parts i p * spacing, if p.pinned then spacing else 0, 0) ∧
        placed[i]? = some { p with payload := some { p.payload.getD {} with
          pos := (rank parts i p * spacing, if p.pinned then spacing else 0, 0) } }) ∧
      (spacing ≠ 0 → ∀ (i j : Nat) (q r : Part Appearance), i ≠ j → placed[i]? = some q → placed[j]? = some r →
        q.position? ≠ r.position?) ∧
      place placed (.linear spacing) = .ok placed := by
  refine ⟨⟨fun h => ?_, ?_⟩, fun e h => ?_, fun placed h => ?_⟩
  · by_contra hall
    push Not at hall
    simp only [ne_eq, Bool.not_eq_false] at hall
    rw [place_linear_eq_ok.2 ⟨hall, rfl⟩] at h
    cases h
  · rintro ⟨i, p, hp, hoverflow⟩
    cases h : place parts (.linear spacing) with
    | error e => rw [place_linear_eq_error h]
    | ok placed =>
      rw [(place_linear_eq_ok.1 h).1 i p hp] at hoverflow
      cases hoverflow
  · obtain rfl := place_linear_eq_error h
    exact ⟨rfl, placeInPlace_of_eq_error h⟩
  · obtain ⟨hfits, hplaced⟩ := place_linear_eq_ok.1 h
    refine ⟨placeInPlace_of_eq_ok hspacing h, ?_, fun i p hp => ⟨?_, ⟨hfits i p hp, ?_, rfl⟩, ?_⟩, ?_,
      place_linear_place h⟩
    · rw [hplaced, List.length_mapIdx]
    · have hlt := (List.getElem?_eq_some_iff.1 hp).1
      have hrank := rank_le parts i p
      omega
    · show fitsCoordinate (if p.pinned then spacing else 0) = true
      split
      · exact hspacing
      · rfl
    · exact getElem?_place_linear h hp
    · intro hzero i j q r hij hq hr heq
      rw [hplaced, List.getElem?_mapIdx, Option.map_eq_some_iff] at hq hr
      obtain ⟨p, hp, rfl⟩ := hq
      obtain ⟨p', hp', rfl⟩ := hr
      obtain ⟨hrow, hrank⟩ := (Placement.inRow_inj hzero).1 (Option.some.inj heq)
      exact rank_ne_rank hij hp hp' hrow hrank

/-- Two plain parts and two pinned ones, and one of each pair has a look already. -/
def brink : List (Part Appearance) :=
  [⟨0, .gate .or, [1], [], false, none⟩, ⟨1, .gate .nor, [2], [0], true, some ⟨"ff0000", (7, 7, 7), (0, 1)⟩⟩,
    ⟨2, .timer 3 0, [3], [1], false, some ⟨"00ff00", (0, 0, 0), (1, 0)⟩⟩, ⟨3, .gate .xor, [], [2], true, none⟩]

/-- The least spacing of 32 bits takes two parts in a row, and no third one. -/
theorem place_in_rows_brink : brink.length < 0x80000000 ∧ fitsCoordinate (-0x80000000) = true ∧
    (∃ placed, place brink (.linear (-0x80000000)) = .ok placed ∧
      (placeInPlace (.linear (-0x80000000))).run.run brink = (.ok (), placed) ∧
      placed.map (·.payload) = [some { pos := (0, 0, 0) }, some ⟨"ff0000", (0, -0x80000000, 0), (0, 1)⟩,
        some ⟨"00ff00", (-0x80000000, 0, 0), (1, 0)⟩, some { pos := (-0x80000000, -0x80000000, 0) }] ∧
      place placed (.linear (-0x80000000)) = .ok placed) ∧
    (placeInPlace (.linear (-0x80000000))).run.run (brink ++ brink) = (.error .overflow, brink ++ brink) := by
  have hspacing : fitsCoordinate (-0x80000000) = true := by decide
  have hsize : brink.length < 0x80000000 := by decide
  obtain ⟨-, -, hplaced⟩ := place_in_rows brink hsize hspacing
  obtain ⟨⟨-, hoverflow⟩, hfailed, -⟩ := place_in_rows (brink ++ brink) (by decide) hspacing
  refine ⟨hsize, hspacing, ?_, (hfailed _ (hoverflow ⟨6, _, rfl, by decide⟩)).2⟩
  obtain ⟨hinPlace, -, -, -, hagain⟩ := hplaced _ rfl
  exact ⟨_, rfl, hinPlace, by decide, hagain⟩

end Netlist
