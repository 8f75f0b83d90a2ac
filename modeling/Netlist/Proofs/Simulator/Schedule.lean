/-
Runs of a simulator. In every frame the jobs of the two phases may run in any order. No order and
no partition of the parts changes what a simulator holds, and no job ever reads or writes out of
range: simulators of one part list agree after every operation.
-/
import Netlist.Proofs.Operation
import Netlist.Proofs.Simulator.Layout

namespace Netlist

variable {P : Type}

/-- The orders in which the jobs of the phases of a frame run. -/
structure JobOrder where
  capture : List Nat
  commit : List Nat
  deriving DecidableEq, Repr

namespace Simulator

/-! ## Runs -/

/-- The simulator after an operation, whose jobs run in the given orders if it is a frame. A call
for a part that does not exist is refused and changes nothing. -/
def performIn? (s : Simulator) : Operation × JobOrder → Option Simulator
  | (.drive target value, _) => some ((s.drive target value).toOption.getD s)
  | (.step, order) => s.stepIn? order.capture order.commit

/-- The simulator after some operations. -/
def runIn? (s : Simulator) (ops : List (Operation × JobOrder)) : Option Simulator :=
  ops.foldlM performIn? s

/-- The simulator after an operation, with the jobs in the order of the ranges. -/
def perform (s : Simulator) : Operation → Simulator
  | .drive target value => (s.drive target value).toOption.getD s
  | .step => s.step

/-- The simulator after some operations, with the jobs in the order of the ranges. -/
def performAll (s : Simulator) (ops : List Operation) : Simulator := ops.foldl perform s

/-- Every job of the simulator runs once in each phase. -/
def Runs (s : Simulator) (order : JobOrder) : Prop :=
  order.capture.Perm (List.range s.ranges.size) ∧ order.commit.Perm (List.range s.ranges.size)

instance (s : Simulator) (order : JobOrder) : Decidable (s.Runs order) :=
  inferInstanceAs (Decidable (_ ∧ _))

/-! ## What an operation does -/

theorem drive_eq {s : Simulator} {target : Nat} {value : Option Bool} :
    (s.drive target value).toOption.getD s =
      { s with driven := s.driven.setIfInBounds target value } := by
  unfold drive
  split
  · next h => simp [Array.setIfInBounds, h, Except.toOption]
  · next h => simp [Array.setIfInBounds, h, Except.toOption]

theorem perform_drive (s : Simulator) (target : Nat) (value : Option Bool) :
    s.perform (.drive target value) = { s with driven := s.driven.setIfInBounds target value } :=
  drive_eq

theorem driven_perform {s : Simulator} {i : Nat} (hi : i < s.driven.size) (target : Nat)
    (value : Option Bool) : (s.perform (.drive target value)).driven.getD i none =
      if i = target then value else s.driven.getD i none := by
  rw [perform_drive]
  simp only [Array.getD_eq_getD_getElem?]
  by_cases hit : i = target
  · subst hit
    simp [hi]
  · rw [Array.getElem?_setIfInBounds_ne (Ne.symm hit), if_neg hit]

theorem perform_step {s : Simulator} (hs : s.Sound) : s.perform .step = s.advance := step_eq hs

theorem Sound.perform {s : Simulator} (hs : s.Sound) (op : Operation) : (s.perform op).Sound := by
  cases op with
  | drive target value =>
    rw [perform_drive]
    exact ⟨hs.layout, hs.ranges, by simp [hs.driven], hs.captured, hs.active, hs.lines⟩
  | step =>
    rw [perform_step hs]
    exact hs.advance

theorem ranges_perform {s : Simulator} (hs : s.Sound) (op : Operation) :
    (s.perform op).ranges = s.ranges := by
  cases op with
  | drive target value => rw [perform_drive]
  | step =>
    rw [perform_step hs]
    rfl

theorem run_eq_performAll : ∀ (n : Nat) (s : Simulator), s.run n = s.performAll (List.replicate n .step)
  | 0, _ => rfl
  | n + 1, s => run_eq_performAll n s.step

theorem performAll_append (s : Simulator) (ops ops' : List Operation) :
    s.performAll (ops ++ ops') = (s.performAll ops).performAll ops' := List.foldl_append ..

/-! ## The orders of the jobs -/

/-- A run never fails, and no order of its jobs changes it. -/
theorem runIn?_eq {s : Simulator} (hs : s.Sound) {ops : List (Operation × JobOrder)}
    (horders : ∀ op ∈ ops, op.1 = .step → s.Runs op.2) : s.runIn? ops = some (s.performAll (ops.map (·.1))) := by
  induction ops generalizing s with
  | nil => rfl
  | cons op ops ih =>
    obtain ⟨op, order⟩ := op
    have hfirst : s.performIn? (op, order) = some (s.perform op) := by
      cases op with
      | drive target value => rfl
      | step =>
        obtain ⟨hcapture, hcommit⟩ := horders _ (List.mem_cons_self ..) rfl
        rw [performIn?, stepIn?_eq hs hcapture hcommit, perform_step hs]
    have hrest := ih (hs.perform op) fun x hx hstep => by
      unfold Runs
      rw [ranges_perform hs]
      exact horders x (List.mem_cons_of_mem _ hx) hstep
    rw [runIn?, List.foldlM_cons, hfirst]
    exact hrest

/-! ## The partition -/

/-- Operations commute with a change of the ranges. -/
theorem perform_ranges {s t : Simulator} (hs : s.Sound) (ht : t.Sound)
    (h : s = { t with ranges := s.ranges }) (op : Operation) :
    s.perform op = { t.perform op with ranges := (s.perform op).ranges } := by
  cases op with
  | drive target value =>
    rw [perform_drive, perform_drive, h]
  | step =>
    rw [perform_step hs, perform_step ht, h]
    rfl

theorem performAll_ranges {s t : Simulator} (hs : s.Sound) (ht : t.Sound)
    (h : s = { t with ranges := s.ranges }) (ops : List Operation) :
    s.performAll ops = { t.performAll ops with ranges := (s.performAll ops).ranges } := by
  induction ops generalizing s t with
  | nil => exact h
  | cons op ops ih => exact ih (hs.perform op) (ht.perform op) (perform_ranges hs ht h op)

/-- However two simulators of one part list split their parts, and in whatever orders their jobs
run, they hold the same after the same operations: none of their runs fails, and the states of the
parts, the captured states, the delay lines, the driven states and the number of frames are
equal. -/
theorem runs_agree {parts : List (Part P)} {o : SimulatorOptions} {s : Simulator}
    (h : ofParts parts o = .ok s) (o' : SimulatorOptions) :
    ∃ s', ofParts parts o' = .ok s' ∧
      ∀ ops ops' : List (Operation × JobOrder), ops.map (·.1) = ops'.map (·.1) →
        (∀ op ∈ ops, op.1 = .step → s.Runs op.2) → (∀ op ∈ ops', op.1 = .step → s'.Runs op.2) →
        ∃ t t', s.runIn? ops = some t ∧ s'.runIn? ops' = some t' ∧
          t.active = t'.active ∧ t.captured = t'.captured ∧ t.lines = t'.lines ∧
          t.driven = t'.driven ∧ t.frame = t'.frame := by
  obtain ⟨hparts, rfl⟩ := ofParts_eq_ok.1 h
  have hlayout := Layout.sound_ofParts hparts
  have hs := sound_start hlayout o
  have hs' := sound_start hlayout o'
  refine ⟨_, ofParts_eq_ok.2 ⟨hparts, rfl⟩, fun ops ops' hops horders horders' => ?_⟩
  have heq := performAll_ranges hs hs' rfl (ops.map (·.1))
  refine ⟨_, _, runIn?_eq hs horders, runIn?_eq hs' horders', ?_⟩
  rw [← hops, heq]
  exact ⟨rfl, rfl, rfl, rfl, rfl⟩

/-- A gate and a timer that feed each other. -/
def blinker : List (Part Unit) :=
  [⟨0, .gate .nor, [1], [1], true, none⟩, ⟨1, .timer 2 0, [0], [0], false, none⟩]

theorem runs_agree_blinker : ∃ s s', ofParts blinker {} = .ok s ∧ ofParts blinker ⟨2, none⟩ = .ok s' ∧
    ∃ t t', s.runIn? [(.drive 0 (some true), ⟨[], []⟩), (.step, ⟨[0], [0]⟩)] = some t ∧
      s'.runIn? [(.drive 0 (some true), ⟨[], []⟩), (.step, ⟨[1, 0], [0, 1]⟩)] = some t' ∧
      t.active = t'.active := by
  have hs : ofParts blinker {} = .ok (start (Layout.ofParts blinker) {}) := rfl
  obtain ⟨s', hs', hagree⟩ := runs_agree hs ⟨2, none⟩
  obtain rfl : start (Layout.ofParts blinker) ⟨2, none⟩ = s' := Except.ok.inj hs'
  obtain ⟨t, t', ht, ht', hactive, -⟩ := hagree
    [(.drive 0 (some true), ⟨[], []⟩), (.step, ⟨[0], [0]⟩)]
    [(.drive 0 (some true), ⟨[], []⟩), (.step, ⟨[1, 0], [0, 1]⟩)] rfl (by decide) (by decide)
  exact ⟨_, _, hs, hs', t, t', ht, ht', hactive⟩

end Simulator

end Netlist
