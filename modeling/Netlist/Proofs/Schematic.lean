/-
The synchronous semantics of cells that read each other. All cells are inactive before the first
frame. In a frame a driven cell takes the state it is driven to, a gate evaluates its mode over the
states of its sources after the frame before, and a timer shows whether one of its sources was
active as many frames earlier as its delay says. There are no queues here: a timer looks back into
the history of all states.

If the cells of one schematic are found in another under other names, with the same sources up to
their order, then they go through the same states.
-/
import Mathlib.Data.List.Perm.Basic
import Netlist.Cell
import Netlist.Proofs.Operation

namespace Netlist

/-- An order of the inputs does not matter to a gate. -/
theorem Mode.evaluate_perm (mode : Mode) {inputs inputs' : List Bool} (h : inputs.Perm inputs') :
    mode.evaluate inputs = mode.evaluate inputs' := by
  have hempty : inputs.isEmpty = inputs'.isEmpty := by
    rw [Bool.eq_iff_iff, List.isEmpty_iff, List.isEmpty_iff, ← List.length_eq_zero_iff, h.length_eq,
      List.length_eq_zero_iff]
  have hall : inputs.all id = inputs'.all id := by
    rw [Bool.eq_iff_iff, List.all_eq_true, List.all_eq_true]
    simp only [h.mem_iff]
  have hany : inputs.any id = inputs'.any id := by
    rw [Bool.eq_iff_iff, List.any_eq_true, List.any_eq_true]
    simp only [h.mem_iff]
  simp only [evaluate, hempty, hall, hany, h.count_eq]

/-! ## Histories -/

/-- What has happened so far: what the cells are driven to, and their states after every frame,
newest first and down to those before the first frame. -/
structure History where
  forced : Nat → Option Bool
  frames : List (Nat → Bool)

namespace History

/-- Nothing is driven, and all cells are inactive. -/
def start : History := ⟨fun _ => none, [fun _ => false]⟩

/-- The state of a cell some frames ago, inactive before the beginning. -/
def ago (h : History) (d n : Nat) : Bool := h.frames.getD d (fun _ => false) n

end History

/-! ## Schematics -/

/-- Cells by name, and the cells that each of them reads. -/
structure Schematic where
  cell? : Nat → Option Cell
  sources : Nat → List Nat

namespace Schematic

/-- What a cell shows in the next frame if it is not driven. -/
def response (σ : Schematic) (h : History) (n : Nat) : Bool :=
  match σ.cell? n with
  | none => false
  | some (.gate mode) => mode.evaluate ((σ.sources n).map (h.ago 0))
  | some (.timer ticks seconds) => (σ.sources n).any (h.ago (Cell.timer ticks seconds).delay)

/-- The history after an operation. -/
def perform (σ : Schematic) (h : History) (op : Operation) : History :=
  match op with
  | .drive .. => { h with forced := op.force h.forced }
  | .step => { h with frames := (fun n => (h.forced n).getD (σ.response h n)) :: h.frames }

/-- The history of some operations. -/
def run (σ : Schematic) (ops : List Operation) : History := ops.foldl σ.perform .start

/-- The state of a cell after some operations. -/
def state (σ : Schematic) (ops : List Operation) (n : Nat) : Bool := (σ.run ops).ago 0 n

variable {σ τ : Schematic}

theorem run_append (σ : Schematic) (ops rest : List Operation) :
    σ.run (ops ++ rest) = rest.foldl σ.perform (σ.run ops) := by
  simp [run]

theorem forced_perform (σ : Schematic) (h : History) (op : Operation) :
    (σ.perform h op).forced = op.force h.forced := by
  cases op <;> rfl

/-- What the cells are driven to does not depend on the cells. -/
theorem forced_run (σ : Schematic) (ops : List Operation) :
    (σ.run ops).forced = Operation.forcedAfter ops := by
  unfold run Operation.forcedAfter
  have key : ∀ h : History, (ops.foldl σ.perform h).forced = ops.foldl Operation.force h.forced := by
    induction ops with
    | nil => exact fun _ => rfl
    | cons op ops ih =>
      intro h
      rw [List.foldl_cons, ih, forced_perform, List.foldl_cons]
  exact key .start

/-- Calls between two frames leave the states alone. -/
theorem frames_foldl_of_notMem : ∀ {ops : List Operation}, .step ∉ ops → ∀ h : History,
    (ops.foldl σ.perform h).frames = h.frames
  | [], _, _ => rfl
  | .drive .. :: ops, hops, h => by
    rw [List.foldl_cons, frames_foldl_of_notMem fun hm => hops (List.mem_cons_of_mem _ hm)]
    rfl
  | .step :: ops, hops, _ => absurd (List.mem_cons_self ..) hops

/-- The states after one more frame. -/
theorem frames_run_upTo_succ {ops : List Operation} {t : Nat} (ht : t < Operation.frames ops) :
    (σ.run (Operation.upTo (t + 1) ops)).frames =
      (σ.perform (σ.run (Operation.upTo t ops)) .step).frames := by
  obtain ⟨drives, hdrives, heq⟩ := Operation.upTo_succ ht
  rw [heq, run_append, List.foldl_cons, frames_foldl_of_notMem hdrives]

theorem frames_run_upTo_zero (ops : List Operation) : (σ.run (Operation.upTo 0 ops)).frames = History.start.frames :=
  frames_foldl_of_notMem (Operation.step_notMem_upTo_zero ops) _

/-- Looking back over `d` frames shows the states after `t - d` frames. -/
theorem ago_run_upTo {ops : List Operation} : ∀ {t : Nat}, t ≤ Operation.frames ops → ∀ d n : Nat,
    (σ.run (Operation.upTo t ops)).ago d n = (decide (d ≤ t) && σ.state (Operation.upTo (t - d) ops) n)
  | t, _, 0, n => by simp [state]
  | 0, _, d + 1, n => by simp [History.ago, frames_run_upTo_zero, History.start]
  | t + 1, ht, d + 1, n => by
    have ht' : t ≤ Operation.frames ops := Nat.le_of_succ_le ht
    have ih := ago_run_upTo ht' d n
    rw [History.ago, frames_run_upTo_succ (by omega)]
    simpa [perform, History.ago] using ih

/-! ## Schematics with other names -/

/-- The cells in `keep` are found in `τ` under the names that `f` gives them, and they read no other
cells. A call for another cell does not reach them. -/
structure Embeds (σ τ : Schematic) (keep : Nat → Prop) (name : Nat → Option Nat) (f : Nat → Nat) :
    Prop where
  name_eq : ∀ n, keep n → name n = some (f n)
  name_inj : ∀ m n, keep n → name m = some (f n) → m = n
  cell : ∀ n, keep n → τ.cell? (f n) = σ.cell? n
  sources : ∀ n, keep n → (τ.sources (f n)).Perm ((σ.sources n).map f)
  closed : ∀ n, keep n → ∀ m ∈ σ.sources n, keep m

variable {keep : Nat → Prop} {name : Nat → Option Nat} {f : Nat → Nat}

/-- The kept cells have the same history under both names. -/
def SameHistory (keep : Nat → Prop) (f : Nat → Nat) (h h' : History) : Prop :=
  ∀ n, keep n → h'.forced (f n) = h.forced n ∧ ∀ d, h'.ago d (f n) = h.ago d n

namespace Embeds

theorem response_eq (e : Embeds σ τ keep name f) {h h' : History} (hh : SameHistory keep f h h')
    {n : Nat} (hn : keep n) : τ.response h' (f n) = σ.response h n := by
  have hago : ∀ d, ∀ m ∈ σ.sources n, h'.ago d (f m) = h.ago d m :=
    fun d m hm => (hh m (e.closed n hn m hm)).2 d
  unfold response
  rw [e.cell n hn]
  split
  · rfl
  · next mode _ =>
    rw [mode.evaluate_perm ((e.sources n hn).map _), List.map_map]
    exact congrArg _ (List.map_congr_left fun m hm => hago 0 m hm)
  · rw [Bool.eq_iff_iff, List.any_eq_true, List.any_eq_true]
    constructor
    · rintro ⟨m', hm', hactive⟩
      obtain ⟨m, hm, rfl⟩ := List.mem_map.1 ((e.sources n hn).mem_iff.1 hm')
      exact ⟨m, hm, (hago _ m hm).symm.trans hactive⟩
    · rintro ⟨m, hm, hactive⟩
      exact ⟨f m, (e.sources n hn).mem_iff.2 (List.mem_map_of_mem hm), (hago _ m hm).trans hactive⟩

/-- An operation and its renaming keep the histories alike. -/
theorem perform_same (e : Embeds σ τ keep name f) {h h' : History} (hh : SameHistory keep f h h')
    (op : Operation) :
    SameHistory keep f (σ.perform h op) ((op.rename name).elim h' (τ.perform h')) := by
  intro n hn
  obtain ⟨hforced, hago⟩ := hh n hn
  cases op with
  | drive target value =>
    cases hname : name target with
    | none =>
      have hne : n ≠ target := by
        rintro rfl
        rw [e.name_eq n hn] at hname
        cases hname
      simpa [Operation.rename, hname, perform, Operation.force, hne, History.ago] using ⟨hforced, hago⟩
    | some target' =>
      by_cases hnt : n = target
      · subst hnt
        obtain rfl : f n = target' := Option.some.inj ((e.name_eq n hn).symm.trans hname)
        exact ⟨by simp [Operation.rename, hname, perform, Operation.force],
          by simpa [Operation.rename, hname, perform, History.ago] using hago⟩
      · have hne : f n ≠ target' := fun heq => hnt (e.name_inj target n hn (heq ▸ hname)).symm
        exact ⟨by simpa [Operation.rename, hname, perform, Operation.force, hnt, hne] using hforced,
          by simpa [Operation.rename, hname, perform, History.ago] using hago⟩
  | step =>
    refine ⟨hforced, fun d => ?_⟩
    cases d with
    | zero => simp [Operation.rename, perform, History.ago, hforced, e.response_eq hh hn]
    | succ d => simpa [Operation.rename, perform, History.ago] using hago d

/-- Renamed cells go through the same states. -/
theorem state_eq (e : Embeds σ τ keep name f) (ops : List Operation) {n : Nat} (hn : keep n) :
    τ.state (ops.filterMap (Operation.rename name)) (f n) = σ.state ops n := by
  -- the kept cells have had the same states so far, whatever the others do
  have key : ∀ (ops : List Operation) (h h' : History), SameHistory keep f h h' →
      SameHistory keep f (ops.foldl σ.perform h)
        ((ops.filterMap (Operation.rename name)).foldl τ.perform h') := by
    intro ops
    induction ops with
    | nil => exact fun _ _ hh => hh
    | cons op ops ih =>
      intro h h' hh
      have hstep := ih _ _ (e.perform_same hh op)
      rw [List.filterMap_cons]
      cases hop : op.rename name with
      | none => simpa [hop] using hstep
      | some op' => simpa [hop] using hstep
  exact (key ops _ _ (fun m _ => ⟨rfl, fun d => by cases d <;> simp [History.start, History.ago]⟩) n hn).2 0

end Embeds

end Schematic

end Netlist
