/-
Runs that are written down frame by frame, with the calls that are made before each frame, and tables
that say what every cell shows after each frame. A table that begins with no cell active and follows
the law of the cells from frame to frame is what the run gives.
-/
import Netlist.Proofs.Schematic

namespace Netlist

/-! ## Scripts -/

namespace Operation

/-- The first frames of a run. Before frame `t`, counted from one, the calls `calls t` are made, each of
which drives a cell or releases it. -/
def script (calls : Nat → List (Nat × Option Bool)) : Nat → List Operation
  | 0 => []
  | t + 1 => script calls t ++ (calls (t + 1)).map (fun call => drive call.1 call.2) ++ [step]

variable {calls : Nat → List (Nat × Option Bool)}

/-- What a cell is driven to in a frame of a script. -/
def held (calls : Nat → List (Nat × Option Bool)) (t n : Nat) : Option Bool := forcedAfter (script calls t) n

theorem held_succ (calls : Nat → List (Nat × Option Bool)) (t : Nat) : held calls (t + 1) =
    (calls (t + 1)).foldl (fun forced call => Function.update forced call.1 call.2) (held calls t) := by
  show forcedAfter (script calls (t + 1)) = _
  rw [script, forcedAfter, List.foldl_append, List.foldl_append, List.foldl_map]
  rfl

/-- A script keeps its calls under new names if it calls cells only that keep theirs. -/
theorem filterMap_rename_script {name : Nat → Option Nat}
    (h : ∀ t, ∀ call ∈ calls t, name call.1 = some call.1) : ∀ t,
    (script calls t).filterMap (rename name) = script calls t
  | 0 => rfl
  | t + 1 => by
    have hcalls : ((calls (t + 1)).map fun call => drive call.1 call.2).filterMap (rename name) =
        (calls (t + 1)).map fun call => drive call.1 call.2 := by
      rw [List.filterMap_map, ← List.filterMap_eq_map]
      refine List.filterMap_congr fun call hcall => ?_
      simp [rename, h (t + 1) call hcall]
    rw [script, List.filterMap_append, List.filterMap_append, filterMap_rename_script h t, hcalls]
    rfl

end Operation

/-! ## Tables -/

/-- What a cell that is not driven shows in frame `t + 1`, if the rows of a table are the states after
each frame. -/
def Cell.next (cell : Cell) (rows : Nat → Nat → Bool) (t : Nat) (sources : List Nat) : Bool :=
  match cell with
  | .gate mode => mode.evaluate (sources.map (rows t))
  | .timer .. => sources.any (rows (t - cell.delay))

namespace Schematic

/-- A table of the states of some cells after each frame of a script. -/
structure Table (σ : Schematic) (keep : Nat → Prop) (calls : Nat → List (Nat × Option Bool))
    (rows : Nat → Nat → Bool) : Prop where
  closed : ∀ n, keep n → ∀ m ∈ σ.sources n, keep m
  start : ∀ n, keep n → rows 0 n = false
  law : ∀ n, keep n → ∃ cell, σ.cell? n = some cell ∧ ∀ t, rows (t + 1) n =
    (Operation.held calls (t + 1) n).getD (cell.next rows t (σ.sources n))

variable {σ : Schematic} {keep : Nat → Prop} {calls : Nat → List (Nat × Option Bool)} {rows : Nat → Nat → Bool}

namespace Table

/-- A cell responds as the table says if all frames so far did. -/
theorem response_eq (h : σ.Table keep calls rows) {past : History} {t : Nat}
    (hpast : ∀ d n, keep n → past.ago d n = rows (t - d) n) {n : Nat} (hn : keep n) {cell : Cell}
    (hcell : σ.cell? n = some cell) : σ.response past n = cell.next rows t (σ.sources n) := by
  have hsource := h.closed n hn
  rw [response, hcell]
  cases cell with
  | gate mode => exact congrArg mode.evaluate (List.map_congr_left fun m hm => hpast 0 m (hsource m hm))
  | timer ticks seconds =>
    show (σ.sources n).any _ = (σ.sources n).any _
    rw [Bool.eq_iff_iff, List.any_eq_true, List.any_eq_true]
    constructor
    · rintro ⟨m, hm, hactive⟩
      exact ⟨m, hm, (hpast _ m (hsource m hm)).symm.trans hactive⟩
    · rintro ⟨m, hm, hactive⟩
      exact ⟨m, hm, (hpast _ m (hsource m hm)).trans hactive⟩

/-- Looking back from any frame shows the rows of the frames before. -/
theorem ago_run (h : σ.Table keep calls rows) : ∀ t d n, keep n →
    (σ.run (Operation.script calls t)).ago d n = rows (t - d) n := by
  intro t
  induction t with
  | zero =>
    intro d n hn
    rw [Nat.zero_sub, h.start n hn]
    cases d <;> rfl
  | succ t ih =>
    intro d n hn
    obtain ⟨before, hbefore⟩ : ∃ x, Operation.script calls t ++
      (calls (t + 1)).map (fun call => .drive call.1 call.2) = x := ⟨_, rfl⟩
    -- the calls before the frame leave all earlier states alone
    have hpast : ∀ d n, keep n → (σ.run before).ago d n = rows (t - d) n := by
      intro d n hn
      have hframes : (σ.run before).frames = (σ.run (Operation.script calls t)).frames := by
        rw [← hbefore, run_append]
        exact frames_foldl_of_notMem (by simp) _
      rw [History.ago, hframes]
      exact ih d n hn
    have hscript : Operation.script calls (t + 1) = before ++ [.step] := by rw [← hbefore, Operation.script]
    rw [hscript, run_append]
    cases d with
    | zero =>
      obtain ⟨cell, hcell, hlaw⟩ := h.law n hn
      have hheld : (σ.run before).forced n = Operation.held calls (t + 1) n := by
        rw [forced_run, Operation.held, hscript, Operation.forcedAfter, Operation.forcedAfter, List.foldl_append]
        rfl
      show ((σ.run before).forced n).getD (σ.response (σ.run before) n) = rows (t + 1) n
      rw [hlaw, hheld, h.response_eq hpast hn hcell]
    | succ d =>
      rw [Nat.add_sub_add_right]
      exact hpast d n hn

/-- The states after the frames of a script are the rows of its table. -/
theorem state_eq (h : σ.Table keep calls rows) (t : Nat) {n : Nat} (hn : keep n) :
    σ.state (Operation.script calls t) n = rows t n :=
  h.ago_run t 0 n hn

end Table

end Schematic

end Netlist
