/-
A frame on the whole arrays. `Simulator.advance` computes a frame without any ranges: it copies the
states of all sources, and then finds the next state of every part from the copies. On a sound
simulator, which is one whose arrays fit together and whose ranges cover the parts, a frame split
along the ranges gives exactly that, whatever the order of the jobs of each phase; in particular
no cut, no subtraction and no access is out of range.
-/
import Netlist.Proofs.Sequence
import Netlist.Proofs.Simulator.Pieces
import Netlist.Simulator.Frame

namespace Netlist

/-! ## Sound layouts -/

namespace Layout

/-- The place where the sources of a part begin. -/
def offset (l : Layout) (i : Nat) : Nat := l.offsets.getD i 0

/-- The places of the sources of a range of parts. -/
def place (l : Layout) (r : Range) : Range := ⟨l.offset r.start, l.offset r.stop⟩

/-- The sources of part `i` lie from `offset i` up to `offset (i + 1)`, and they are parts. -/
structure Sound (l : Layout) : Prop where
  size : l.offsets.size = l.cells.size + 1
  first : l.offset 0 = 0
  mono : ∀ i j, i ≤ j → j ≤ l.cells.size → l.offset i ≤ l.offset j
  last : l.offset l.cells.size = l.sources.size
  bound : ∀ k (h : k < l.sources.size), l.sources[k] < l.cells.size

namespace Sound

variable {l : Layout}

theorem getElem?_offsets (hl : l.Sound) {i : Nat} (hi : i ≤ l.cells.size) :
    l.offsets[i]? = some (l.offset i) := by
  have hlt : i < l.offsets.size := by
    have := hl.size
    omega
  simp [offset, Array.getD, hlt]

theorem offset_le (hl : l.Sound) {i : Nat} (hi : i ≤ l.cells.size) :
    l.offset i ≤ l.sources.size :=
  hl.last ▸ hl.mono i _ hi (Nat.le_refl _)

theorem tiles_place (hl : l.Sound) {rs : List Range} (h : Tiles 0 rs l.cells.size) :
    Tiles 0 (rs.map l.place) l.sources.size := by
  have := h.map hl.mono
  rwa [hl.first, hl.last] at this

end Sound

end Layout

namespace Simulator

/-! ## Sound simulators -/

/-- The arrays fit together, and the ranges cover the parts without a gap. -/
structure Sound (s : Simulator) : Prop where
  layout : s.layout.Sound
  ranges : Tiles 0 s.ranges.toList s.layout.cells.size
  driven : s.driven.size = s.layout.cells.size
  captured : s.captured.size = s.layout.sources.size
  active : s.active.size = s.layout.cells.size
  lines : s.lines.size = s.layout.cells.size

theorem Sound.mem_range {s : Simulator} (hs : s.Sound) {r : Range} (hr : r ∈ s.ranges.toList) :
    r.start ≤ r.stop ∧ r.stop ≤ s.layout.cells.size :=
  (hs.ranges.mem hr).2

/-! ## The frame as a whole -/

/-- The states of all sources. -/
def gathered (s : Simulator) : Array Bool := s.layout.sources.map (s.active.getD · false)

/-- The captured states of the sources of a part. -/
def inputs (s : Simulator) (i : Nat) : List Bool :=
  (s.captured.extract (s.layout.offset i) (s.layout.offset (i + 1))).toList

/-- What the cell of a part makes of its captured inputs, with its delay line afterwards. -/
def response (s : Simulator) (i : Nat) (cell : Cell) : Bool × DelayLine :=
  nextState cell (s.lines.getD i (.idle 0)) (s.inputs i)

/-- The next state of a part: what it is driven to, or else what its cell shows. -/
def nextActive (s : Simulator) (i : Nat) (cell : Cell) : Bool :=
  (s.driven.getD i none).getD (s.response i cell).1

/-- The simulator with all sources captured. -/
def gather (s : Simulator) : Simulator := { s with captured := s.gathered }

/-- The simulator with all parts in their next states. -/
def settle (s : Simulator) : Simulator :=
  { s with
    active := s.layout.cells.mapIdx s.nextActive
    lines := s.layout.cells.mapIdx fun i cell => (s.response i cell).2 }

/-- The simulator after a frame. -/
def advance (s : Simulator) : Simulator := { s.gather.settle with frame := s.frame + 1 }

theorem active_advance {s : Simulator} {i : Nat} {cell : Cell} (hcell : s.layout.cells[i]? = some cell) :
    s.advance.active.getD i false = s.gather.nextActive i cell := by
  rw [Array.getD_eq_getD_getElem?]
  simp only [advance, settle, Array.getElem?_mapIdx]
  rw [show s.gather.layout.cells[i]? = some cell from hcell]
  rfl

theorem lines_advance {s : Simulator} {i : Nat} {cell : Cell} (hcell : s.layout.cells[i]? = some cell) :
    s.advance.lines.getD i (.idle 0) = (s.gather.response i cell).2 := by
  rw [Array.getD_eq_getD_getElem?]
  simp only [advance, settle, Array.getElem?_mapIdx]
  rw [show s.gather.layout.cells[i]? = some cell from hcell]
  rfl

@[simp] theorem size_gathered (s : Simulator) : s.gathered.size = s.layout.sources.size := by
  simp [gathered]

/-! ## Capture -/

theorem sourceCount_eq {l : Layout} (hl : l.Sound) {r : Range} (hr : r.start ≤ r.stop)
    (hstop : r.stop ≤ l.cells.size) :
    sourceCount l r = some (l.place r).length := by
  rw [sourceCount, hl.getElem?_offsets (by omega), hl.getElem?_offsets hstop]
  simp [hl.mono _ _ hr hstop, Range.length, Layout.place]

theorem mapM_sourceCount {l : Layout} (hl : l.Sound) {rs : List Range}
    (h : Tiles 0 rs l.cells.size) :
    rs.mapM (sourceCount l) = some ((rs.map l.place).map Range.length) := by
  rw [List.map_map]
  refine mapM_eq_pure fun r hr => ?_
  obtain ⟨-, hle, hstop⟩ := h.mem hr
  exact sourceCount_eq hl hle hstop

/-- The capture of a source writes the gathered state at the place of the source. -/
theorem captureSource_eq {s : Simulator} (hs : s.Sound) {k : Nat} {state : Bool}
    (hstate : s.gathered[k]? = some state) (base : Nat) (piece : Array Bool) :
    captureSource s.layout s.active base piece k = Pieces.put piece (k - base) state := by
  have hk : k < s.layout.sources.size := by
    have := (Array.getElem?_eq_some_iff.1 hstate).1
    rwa [size_gathered] at this
  have hsource := hs.layout.bound k hk
  have hlt : s.layout.sources[k] < s.active.size := hs.active ▸ hsource
  have hactive : s.active[s.layout.sources[k]] = state := by
    simpa [gathered, Array.getD, hk, hlt] using hstate
  simp [captureSource, hk, hlt, hactive]

/-- The capture job of a range makes of any piece the gathered piece. -/
theorem captureJob_eq {s : Simulator} (hs : s.Sound) {r : Range} (hr : r ∈ s.ranges.toList) :
    captureJob s.layout s.active r (Pieces.piece s.captured (s.layout.place r)) =
      some (Pieces.piece s.gathered (s.layout.place r)) := by
  obtain ⟨hle, hstop⟩ := hs.mem_range hr
  have hbound := hs.layout.offset_le hstop
  have hmono := hs.layout.mono _ _ hle hstop
  have hnew : (Pieces.piece s.gathered (s.layout.place r)).size = (s.layout.place r).length :=
    Pieces.size_piece (by rw [size_gathered]; exact hbound)
  have hold : (Pieces.piece s.captured (s.layout.place r)).size = (s.layout.place r).length :=
    Pieces.size_piece (by rw [hs.captured]; exact hbound)
  have hsize := hnew.trans hold.symm
  rw [captureJob, hs.layout.getElem?_offsets (by omega), hs.layout.getElem?_offsets hstop]
  simp only [Option.bind_eq_bind, Option.bind_some, List.range'_eq_map_range, List.foldlM_map]
  -- when `k` sources are captured, the piece is new up to there and old behind
  have hloop := Pieces.foldlM_range_eq
    (fun p k =>
      captureSource s.layout s.active (s.layout.offset r.start) p (s.layout.offset r.start + k))
    (Pieces.blend (Pieces.piece s.gathered (s.layout.place r))
      (Pieces.piece s.captured (s.layout.place r)))
    (s.layout.place r).length
    fun k hk => by
      have hlt : k < (Pieces.piece s.gathered (s.layout.place r)).size := hnew ▸ hk
      have hstate := Array.getElem?_eq_getElem hlt
      have hplace : s.gathered[s.layout.offset r.start + k]? =
          (Pieces.piece s.gathered (s.layout.place r))[k]? := by
        rw [Pieces.piece, Array.getElem?_extract, if_pos (by simpa [Pieces.piece] using hlt)]
        rfl
      rw [captureSource_eq hs (hplace.trans hstate), Nat.add_sub_cancel_left]
      exact Pieces.put_blend hsize hstate
  rw [Pieces.blend_zero, ← hold, Pieces.blend_size hsize] at hloop
  rw [← hloop, hold]
  rfl

/-- Capturing range by range, in any order, captures all sources. -/
theorem capture?_eq {s : Simulator} (hs : s.Sound) {order : List Nat}
    (horder : order.Perm (List.range s.ranges.size)) : s.capture? order = some s.gather := by
  have htiles := hs.layout.tiles_place hs.ranges
  have hjobs : Pieces.runJobs order
      (fun j piece => s.ranges[j]?.bind fun r => captureJob s.layout s.active r piece)
      ((s.ranges.toList.map s.layout.place).map (Pieces.piece s.captured)).toArray =
      some ((s.ranges.toList.map s.layout.place).map (Pieces.piece s.gathered)).toArray := by
    refine Pieces.runJobs_eq _ (by simpa using horder) (by simp) fun j hj => ?_
    have hj' : j < s.ranges.size := by simpa using hj
    have := captureJob_eq hs (r := s.ranges[j]) (by simp)
    simpa [hj'] using this
  have hcut := Pieces.cut_tiles s.captured (hs.captured ▸ htiles)
  have hjoin := Pieces.join_tiles s.gathered (by simpa using htiles)
  simp only [capture?, mapM_sourceCount hs.layout hs.ranges, Option.bind_eq_bind, Option.bind_some,
    hcut, hjobs, hjoin]
  rfl

/-! ## Commit -/

theorem inputs?_eq {s : Simulator} (hs : s.Sound) {i : Nat} (hi : i < s.layout.cells.size) :
    s.inputs? i = some (s.inputs i) := by
  have hmono := hs.layout.mono i (i + 1) (by omega) (by omega)
  have hbound := hs.layout.offset_le (i := i + 1) (by omega)
  rw [inputs?, hs.layout.getElem?_offsets (by omega), hs.layout.getElem?_offsets (by omega)]
  simp [inputs, hmono, hs.captured, hbound]

/-- The next states and the next delay lines, each beside the present ones, when the first `m` parts
of a range are done. -/
def committed (s : Simulator) (r : Range) (m : Nat) : Array Bool × Array DelayLine :=
  (Pieces.blend (Pieces.piece s.settle.active r) (Pieces.piece s.active r) m,
    Pieces.blend (Pieces.piece s.settle.lines r) (Pieces.piece s.lines r) m)

/-- The pieces of a range have its length, before and after the commit. -/
theorem size_pieces {s : Simulator} (hs : s.Sound) {r : Range} (hr : r ∈ s.ranges.toList) :
    (Pieces.piece s.active r).size = r.length ∧ (Pieces.piece s.lines r).size = r.length ∧
    (Pieces.piece s.settle.active r).size = r.length ∧
    (Pieces.piece s.settle.lines r).size = r.length := by
  obtain ⟨-, hstop⟩ := hs.mem_range hr
  refine ⟨Pieces.size_piece ?_, Pieces.size_piece ?_, Pieces.size_piece ?_, Pieces.size_piece ?_⟩
  · rwa [hs.active]
  · rwa [hs.lines]
  · simpa [settle] using hstop
  · simpa [settle] using hstop

theorem commitPart_eq {s : Simulator} (hs : s.Sound) {r : Range} (hr : r ∈ s.ranges.toList)
    {j : Nat} (hj : j < r.length) :
    commitPart s r.start (s.committed r j) j = some (s.committed r (j + 1)) := by
  obtain ⟨hle, hstop⟩ := hs.mem_range hr
  have hi : r.start + j < s.layout.cells.size := by
    unfold Range.length at hj
    omega
  have hid : r.start + j < s.driven.size := hs.driven ▸ hi
  have hil : r.start + j < s.lines.size := hs.lines ▸ hi
  obtain ⟨hactive, hlines, hactive', hlines'⟩ := size_pieces hs hr
  -- the delay line of the part was not touched by the parts before it
  have hline : (s.committed r j).2[j]? = some (s.lines.getD (r.start + j) (.idle 0)) := by
    have hmin : j < min r.stop s.lines.size - r.start := by
      unfold Range.length at hj
      omega
    rw [committed, Pieces.getElem?_blend (hlines'.trans hlines.symm) (by omega), if_neg (by omega)]
    simp [Pieces.piece, hmin, Array.getD, hil]
  have hmin : j < min r.stop s.layout.cells.size - r.start := by
    unfold Range.length at hj
    omega
  have hstate : (Pieces.piece s.settle.active r)[j]? =
      some (s.nextActive (r.start + j) s.layout.cells[r.start + j]) := by
    simp [Pieces.piece, settle, hmin]
  have hqueue : (Pieces.piece s.settle.lines r)[j]? =
      some (s.response (r.start + j) s.layout.cells[r.start + j]).2 := by
    simp [Pieces.piece, settle, hmin]
  have hputActive := Pieces.put_blend (hactive'.trans hactive.symm) hstate
  have hputLines := Pieces.put_blend (hlines'.trans hlines.symm) hqueue
  have hforced : s.driven[r.start + j]? = some (s.driven.getD (r.start + j) none) := by
    simp [Array.getD, hid]
  rw [commitPart, inputs?_eq hs hi, hline, hforced, Array.getElem?_eq_getElem hi]
  simp only [committed, Option.bind_eq_bind, Option.bind_some]
  exact Option.bind_eq_some_iff.2 ⟨_, hputActive, Option.bind_eq_some_iff.2 ⟨_, hputLines, rfl⟩⟩

/-- The commit job of a range makes of the pieces of the states and of the delay lines those after
the commit. -/
theorem commitJob_eq {s : Simulator} (hs : s.Sound) {r : Range} (hr : r ∈ s.ranges.toList) :
    commitJob s r (Pieces.piece s.active r, Pieces.piece s.lines r) =
      some (Pieces.piece s.settle.active r, Pieces.piece s.settle.lines r) := by
  obtain ⟨hactive, hlines, hactive', hlines'⟩ := size_pieces hs hr
  have hloop := Pieces.foldlM_range_eq (commitPart s r.start) (s.committed r) r.length
    fun j hj => commitPart_eq hs hr hj
  have hstates := Pieces.blend_size (hactive'.trans hactive.symm)
  have hqueues := Pieces.blend_size (hlines'.trans hlines.symm)
  rw [hactive] at hstates
  rw [hlines] at hqueues
  simp only [committed, Pieces.blend_zero, hstates, hqueues] at hloop
  exact hloop

/-- Committing range by range, in any order, commits all parts. -/
theorem commit?_eq {s : Simulator} (hs : s.Sound) {order : List Nat}
    (horder : order.Perm (List.range s.ranges.size)) : s.commit? order = some s.settle := by
  have hactive : s.settle.active.size = s.layout.cells.size := by simp [settle]
  have hlines : s.settle.lines.size = s.layout.cells.size := by simp [settle]
  have hjobs : Pieces.runJobs order (fun j piece => s.ranges[j]?.bind fun r => commitJob s r piece)
      ((s.ranges.toList.map (Pieces.piece s.active)).toArray.zip
        (s.ranges.toList.map (Pieces.piece s.lines)).toArray) =
      some ((s.ranges.toList.map (Pieces.piece s.settle.active)).toArray.zip
        (s.ranges.toList.map (Pieces.piece s.settle.lines)).toArray) := by
    refine Pieces.runJobs_eq _ (by simpa using horder) (by simp) fun j hj => ?_
    have hj' : j < s.ranges.size := by simpa using hj
    have := commitJob_eq hs (r := s.ranges[j]) (by simp)
    simpa [hj'] using this
  have hcutActive := Pieces.cut_tiles s.active (hs.active ▸ hs.ranges)
  have hcutLines := Pieces.cut_tiles s.lines (hs.lines ▸ hs.ranges)
  have hjoinActive := Pieces.join_tiles s.settle.active (hactive ▸ hs.ranges)
  have hjoinLines := Pieces.join_tiles s.settle.lines (hlines ▸ hs.ranges)
  have hsize : (s.ranges.toList.map (Pieces.piece s.settle.active)).toArray.size =
      (s.ranges.toList.map (Pieces.piece s.settle.lines)).toArray.size := by simp
  have hfst := Array.map_fst_zip hsize.le
  have hsnd := Array.map_snd_zip hsize.ge
  simp only [commit?, hcutActive, hcutLines, Option.bind_eq_bind, Option.bind_some, hjobs, hfst,
    hsnd, hjoinActive, hjoinLines]
  rfl

/-! ## Frames -/

theorem Sound.gather {s : Simulator} (hs : s.Sound) : s.gather.Sound :=
  ⟨hs.layout, hs.ranges, hs.driven, by simp [Simulator.gather], hs.active, hs.lines⟩

theorem Sound.advance {s : Simulator} (hs : s.Sound) : s.advance.Sound :=
  ⟨hs.layout, hs.ranges, hs.driven, by simp [Simulator.advance, Simulator.gather, settle],
    by simp [Simulator.advance, Simulator.gather, settle],
    by simp [Simulator.advance, Simulator.gather, settle]⟩

/-- A frame that is split along the ranges never fails, and no order of the jobs changes it. -/
theorem stepIn?_eq {s : Simulator} (hs : s.Sound) {capture commit : List Nat}
    (hcapture : capture.Perm (List.range s.ranges.size))
    (hcommit : commit.Perm (List.range s.ranges.size)) :
    s.stepIn? capture commit = some s.advance := by
  simp only [stepIn?, capture?_eq hs hcapture, Option.bind_eq_bind, Option.bind_some]
  rw [commit?_eq hs.gather hcommit]
  rfl

theorem step_eq {s : Simulator} (hs : s.Sound) : s.step = s.advance := by
  rw [step, stepIn?_eq hs (List.Perm.refl _) (List.Perm.refl _)]
  rfl

end Simulator

end Netlist
