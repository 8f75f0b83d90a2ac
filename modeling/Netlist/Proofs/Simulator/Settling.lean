/-
Networks without loops settle. While the driven parts of a part list are held, a part reads its
sources only if it is not driven. If no part reads itself over any number of parts, then every part
has a level, which counts the frames and delays on the longest way to it, and the combinational
equations of the parts have exactly one solution. After as many frames as its level says a part is
in the state of that solution and stays there, whatever the delay lines held before.
-/
import Mathlib.Data.List.MinMax
import Netlist.Proofs.Sequence
import Netlist.Proofs.Simulator.History

namespace Netlist

variable {P : Type}

/-! ## Parts that are held -/

namespace Simulator

/-- Exactly the parts of a list are driven, to the given states. -/
def DrivenTo (s : Simulator) (ids : List Nat) (states : List Bool) : Prop :=
  ids.map (s.driven.getD · none) = states.map some ∧ ∀ id ∉ ids, s.driven.getD id none = none

/-- Ids beyond the parts are not driven. -/
theorem drivenTo_iff {s : Simulator} {ids : List Nat} {states : List Bool} :
    s.DrivenTo ids states ↔ ids.map (s.driven.getD · none) = states.map some ∧
      ∀ id < s.driven.size, id ∉ ids → s.driven.getD id none = none := by
  refine and_congr_right fun _ => ⟨fun h id _ => h id, fun h id hid => ?_⟩
  rcases Nat.lt_or_ge id s.driven.size with hlt | hge
  · exact h id hlt hid
  · exact dif_neg (Nat.not_lt_of_le hge)

instance (s : Simulator) (ids : List Nat) (states : List Bool) : Decidable (s.DrivenTo ids states) :=
  decidable_of_iff' _ drivenTo_iff

end Simulator

namespace Operation

theorem upTo_append_of_le : ∀ {before : List Operation} {t : Nat} (after : List Operation),
    frames before ≤ t → upTo t (before ++ after) = before ++ upTo (t - frames before) after
  | [], _, _, _ => rfl
  | drive target value :: before, t, after, ht => by
    have hframes : frames (drive target value :: before) = frames before := by simp [frames]
    rw [hframes] at ht ⊢
    rw [List.cons_append, upTo, upTo_append_of_le after ht, List.cons_append]
  | step :: before, 0, _, ht => by simp [frames] at ht
  | step :: before, t + 1, after, ht => by
    have hframes : frames (step :: before) = frames before + 1 := by simp [frames]
    rw [hframes] at ht ⊢
    rw [List.cons_append, upTo, upTo_append_of_le after (Nat.le_of_succ_le_succ ht),
      Nat.add_sub_add_right, List.cons_append]

theorem upTo_frames (ops : List Operation) : upTo (frames ops) ops = ops := by
  have h := upTo_append_of_le [] (le_refl (frames ops))
  simpa [upTo] using h

theorem frames_append (before after : List Operation) :
    frames (before ++ after) = frames before + frames after :=
  List.count_append

theorem mem_of_mem_upTo : ∀ {t : Nat} {ops : List Operation} {op : Operation}, op ∈ upTo t ops → op ∈ ops
  | _, [], _, h => by simp [upTo] at h
  | t, drive target value :: ops, op, h => by
    rcases List.mem_cons.1 h with rfl | h
    · exact List.mem_cons_self ..
    · exact List.mem_cons_of_mem _ (mem_of_mem_upTo h)
  | 0, step :: ops, op, h => by simp [upTo] at h
  | t + 1, step :: ops, op, h => by
    rcases List.mem_cons.1 h with rfl | h
    · exact List.mem_cons_self ..
    · exact List.mem_cons_of_mem _ (mem_of_mem_upTo h)

/-- No call changes what any of the first `size` parts is driven to. -/
def Hold (size : Nat) (forced : Nat → Option Bool) (ops : List Operation) : Prop :=
  ∀ target value, drive target value ∈ ops → target < size → value = forced target

theorem foldl_force_of_hold {size : Nat} {held : Nat → Option Bool} : ∀ {ops : List Operation}
    {forced : Nat → Option Bool}, Hold size held ops → (∀ i < size, forced i = held i) →
    ∀ i < size, ops.foldl force forced i = held i
  | [], _, _, hforced, i, hi => hforced i hi
  | op :: ops, forced, hops, hforced, i, hi => by
    have hrest : Hold size held ops := fun target value hm => hops target value (List.mem_cons_of_mem _ hm)
    refine foldl_force_of_hold hrest (fun j hj => ?_) i hi
    cases op with
    | step => exact hforced j hj
    | drive target value =>
      rw [force, Function.update_apply]
      split
      · next heq => exact heq ▸ hops target value (List.mem_cons_self ..) (heq ▸ hj)
      · exact hforced j hj

/-- From the time on from which the parts are held, nothing else is driven. -/
theorem forcedAfter_upTo_of_hold {size : Nat} {before after : List Operation}
    (hhold : Hold size (forcedAfter before) after) {t : Nat} (ht : frames before ≤ t) {i : Nat}
    (hi : i < size) : forcedAfter (upTo t (before ++ after)) i = forcedAfter before i := by
  rw [upTo_append_of_le after ht, forcedAfter, List.foldl_append]
  exact foldl_force_of_hold (fun target value hm => hhold target value (mem_of_mem_upTo hm))
    (fun _ _ => rfl) i hi

end Operation

/-! ## Levels and equations -/

/-- The level of a part above those of its sources: one for a driven part, and otherwise a frame and
its delay above the highest of its sources. -/
def Part.levelAbove (p : Part P) (forced : Option Bool) (level : Nat → Nat) : Nat :=
  match forced with
  | some _ => 1
  | none => 1 + p.cell.delay + (p.connectionsFrom.map level).foldr max 0

/-- The state of a part for steady states of its sources. -/
def Part.steadyState (p : Part P) (forced : Option Bool) (state : Nat → Bool) : Bool :=
  forced.getD (match p.cell with
    | .gate mode => mode.evaluate (p.connectionsFrom.map state)
    | .timer .. => p.connectionsFrom.any state)

/-- The levels of the parts of a list. -/
def Levelled (parts : List (Part P)) (forced : Nat → Option Bool) (level : Nat → Nat) : Prop :=
  ∀ i (p : Part P), parts[i]? = some p → level i = p.levelAbove (forced i) level

/-- States that solve the combinational equations of the parts of a list. -/
def Solves (parts : List (Part P)) (forced : Nat → Option Bool) (state : Nat → Bool) : Prop :=
  ∀ i (p : Part P), parts[i]? = some p → state i = p.steadyState (forced i) state

/-- Part `i` reads part `m`: it is not driven, and `m` is among its sources. -/
def Reads (parts : List (Part P)) (forced : Nat → Option Bool) (m i : Nat) : Prop :=
  forced i = none ∧ ∃ p, parts[i]? = some p ∧ m ∈ p.connectionsFrom

/-- No part reads itself over any number of parts. -/
def LoopFree (parts : List (Part P)) (forced : Nat → Option Bool) : Prop :=
  ∀ i, ¬ Relation.TransGen (Reads parts forced) i i

variable {parts : List (Part P)} {forced : Nat → Option Bool}

theorem Reads.lt_length (hparts : Accepted parts) {m i : Nat} (h : Reads parts forced m i) :
    m < parts.length := by
  obtain ⟨-, p, hp, hm⟩ := h
  exact hparts.source p (List.mem_of_getElem? hp) m hm

theorem Part.levelAbove_congr {i : Nat} {p : Part P} {level level' : Nat → Nat} (hp : parts[i]? = some p)
    (h : ∀ m, Reads parts forced m i → level m = level' m) :
    p.levelAbove (forced i) level = p.levelAbove (forced i) level' := by
  unfold levelAbove
  split
  · rfl
  · next hfree => rw [List.map_congr_left fun m hm => h m ⟨hfree, p, hp, hm⟩]

theorem Part.steadyState_congr {i : Nat} {p : Part P} {state state' : Nat → Bool} (hp : parts[i]? = some p)
    (h : ∀ m, Reads parts forced m i → state m = state' m) :
    p.steadyState (forced i) state = p.steadyState (forced i) state' := by
  unfold steadyState
  cases hforced : forced i with
  | some v => rfl
  | none =>
    have hmap : p.connectionsFrom.map state = p.connectionsFrom.map state' :=
      List.map_congr_left fun m hm => h m ⟨hforced, p, hp, hm⟩
    have hany : p.connectionsFrom.any state = p.connectionsFrom.any state' :=
      any_congr_mem fun m hm => h m ⟨hforced, p, hp, hm⟩
    rw [hmap, hany]

/-! ## Recursion along what parts read -/

/-- A finite list without loops can be gone through from the sources on. -/
theorem LoopFree.wellFounded (h : LoopFree parts forced) (hparts : Accepted parts) :
    WellFounded (Reads parts forced) :=
  wellFounded_of_acyclic (fun _ _ hm => List.mem_range.2 (hm.lt_length hparts)) h

/-- Without loops, equations that give each part a value from the values of what it reads have
exactly one solution. -/
theorem LoopFree.exists_solution {α : Type} [Inhabited α] (h : LoopFree parts forced)
    (hparts : Accepted parts) {f : Part P → Option Bool → (Nat → α) → α}
    (hlocal : ∀ {i p} {x y : Nat → α}, parts[i]? = some p →
      (∀ m, Reads parts forced m i → x m = y m) → f p (forced i) x = f p (forced i) y) :
    ∃ x : Nat → α, (∀ i (p : Part P), parts[i]? = some p → x i = f p (forced i) x) ∧
      ∀ y : Nat → α, (∀ i (p : Part P), parts[i]? = some p → y i = f p (forced i) y) →
        ∀ i < parts.length, y i = x i := by
  classical
  have hwf := h.wellFounded hparts
  let next (i : Nat) (earlier : ∀ m, Reads parts forced m i → α) : α :=
    (parts[i]?.map fun p => f p (forced i) fun m =>
      if hm : Reads parts forced m i then earlier m hm else default).getD default
  have hfix : ∀ i (p : Part P), parts[i]? = some p → hwf.fix next i = f p (forced i) (hwf.fix next) := by
    intro i p hp
    rw [hwf.fix_eq]
    simp only [next, hp, Option.map_some, Option.getD_some]
    exact hlocal hp fun m hm => dif_pos hm
  refine ⟨hwf.fix next, hfix, fun y hy i => ?_⟩
  induction i using hwf.induction with
  | _ i ih =>
    intro hi
    have hp : parts[i]? = some parts[i] := List.getElem?_eq_getElem hi
    rw [hy i _ hp, hfix i _ hp]
    exact hlocal hp fun m hm => ih m hm (hm.lt_length hparts)

/-! ## Settling -/

/-- Levels that leave every part the frames that its sources need. -/
structure Bounds (parts : List (Part P)) (forced : Nat → Option Bool) (level : Nat → Nat) : Prop where
  driven : ∀ i < parts.length, 1 ≤ level i
  delay : ∀ i (p : Part P), parts[i]? = some p → forced i = none → 1 + p.cell.delay ≤ level i
  source : ∀ i (p : Part P), parts[i]? = some p → forced i = none →
    ∀ m ∈ p.connectionsFrom, 1 + p.cell.delay + level m ≤ level i

theorem Levelled.bounds {level : Nat → Nat} (h : Levelled parts forced level) :
    Bounds parts forced level where
  driven i hi := by
    rw [h i _ (List.getElem?_eq_getElem hi)]
    unfold Part.levelAbove
    split <;> omega
  delay i p hp hfree := by
    rw [h i p hp, hfree]
    exact Nat.le_add_right ..
  source i p hp hfree m hm := by
    rw [h i p hp, hfree]
    exact Nat.add_le_add_left (List.le_max_of_le (List.mem_map_of_mem hm) (le_refl _)) _

namespace Simulator

variable {o : SimulatorOptions} {s : Simulator}

/-- If the parts are held from frame `start` on, then each of them is in its steady state once as
many frames have passed as its level says. -/
theorem stateAfter_of_bounds (hs : ofParts parts o = .ok s) {ops : List Operation} {start : Nat}
    (hheld : ∀ t < Operation.frames ops, start ≤ t → ∀ i < parts.length,
      Operation.forcedAfter (Operation.upTo t ops) i = forced i)
    {level : Nat → Nat} (hlevel : Bounds parts forced level) {state : Nat → Bool}
    (hstate : Solves parts forced state) : ∀ {t i : Nat}, i < parts.length → start + level i ≤ t →
    t ≤ Operation.frames ops → s.stateAfter ops t i = state i := by
  intro t
  induction t using Nat.strong_induction_on with
  | _ t ih =>
    intro i hi hle ht
    have hp : parts[i]? = some parts[i] := List.getElem?_eq_getElem hi
    have hpos := hlevel.driven i hi
    obtain ⟨t, rfl⟩ : ∃ u, t = u + 1 := ⟨t - 1, by omega⟩
    rw [stateAfter_succ hs ht hi, response_upTo hs (Nat.le_of_succ_le ht) hp,
      hheld t ht (by omega) i hi, hstate i _ hp, Part.steadyState]
    cases hforced : forced i with
    | some v => rfl
    | none =>
      have hdelay := hlevel.delay i _ hp hforced
      -- the sources were steady when their signals left
      have hsources : ∀ m ∈ parts[i].connectionsFrom,
          s.stateAfter ops (t - parts[i].cell.delay) m = state m := fun m hm => by
        have := hlevel.source i _ hp hforced m hm
        exact ih _ (by omega) ((ofParts_eq_ok.1 hs).1.source _ (List.getElem_mem hi) m hm) (by omega)
          (by omega)
      rw [Option.getD_none, Option.getD_none]
      cases hc : parts[i].cell with
      | gate mode =>
        rw [hc] at hsources
        exact congrArg mode.evaluate (List.map_congr_left hsources)
      | timer ticks seconds =>
        rw [hc, Cell.delay, framesPerSecond, Nat.mul_comm] at hsources hdelay
        have hpassed : 40 * seconds + ticks ≤ t := by omega
        simp only [hpassed, decide_true, Bool.true_and]
        exact any_congr_mem hsources

/-- Parts that are held after a run are in their steady states after as many frames as their levels
say, whatever the run has left in the delay lines. -/
theorem isActive?_of_bounds (hs : ofParts parts o = .ok s) {before after : List Operation}
    (hhold : Operation.Hold parts.length (Operation.forcedAfter before) after) {level : Nat → Nat}
    (hlevel : Bounds parts (Operation.forcedAfter before) level) {state : Nat → Bool}
    (hstate : Solves parts (Operation.forcedAfter before) state) {i : Nat} (hi : i < parts.length)
    (hle : level i ≤ Operation.frames after) :
    (s.performAll (before ++ after)).isActive? i = some (state i) := by
  have hheld : ∀ t < Operation.frames (before ++ after), Operation.frames before ≤ t →
      ∀ i < parts.length, Operation.forcedAfter (Operation.upTo t (before ++ after)) i =
        Operation.forcedAfter before i :=
    fun t _ hstart i hi => Operation.forcedAfter_upTo_of_hold hhold hstart hi
  have hframes := Operation.frames_append before after
  have hsteady : s.stateAfter (before ++ after) (Operation.frames (before ++ after)) i = state i :=
    stateAfter_of_bounds hs hheld hlevel hstate hi (by omega) (le_refl _)
  rw [stateAfter_eq hs _ _ hi, Operation.upTo_frames] at hsteady
  rw [isActive?_performAll hs _ hi, hsteady]

/-- Networks without loops settle. After any run, let no part that is not driven read itself over
any number of parts that are not driven. Then the parts have levels, and the combinational equations
have a solution, one only of each, and whatever holds the parts from then on, every part is in the
state of the solution once as many frames have passed as its level says. -/
theorem settles (hs : ofParts parts o = .ok s) (before : List Operation)
    (hloops : LoopFree parts (Operation.forcedAfter before)) :
    ∃ level state, Levelled parts (Operation.forcedAfter before) level ∧
      (∀ level', Levelled parts (Operation.forcedAfter before) level' →
        ∀ i < parts.length, level' i = level i) ∧
      Solves parts (Operation.forcedAfter before) state ∧
      (∀ state', Solves parts (Operation.forcedAfter before) state' →
        ∀ i < parts.length, state' i = state i) ∧
      ∀ after, Operation.Hold parts.length (Operation.forcedAfter before) after →
        ∀ i < parts.length, level i ≤ Operation.frames after →
          (s.performAll (before ++ after)).isActive? i = some (state i) := by
  have hparts := (ofParts_eq_ok.1 hs).1
  obtain ⟨level, hlevel, hlevels⟩ := hloops.exists_solution hparts (f := Part.levelAbove)
    Part.levelAbove_congr
  obtain ⟨state, hstate, hstates⟩ := hloops.exists_solution hparts (f := Part.steadyState)
    Part.steadyState_congr
  refine ⟨level, state, hlevel, hlevels, hstate, hstates, fun after hhold i hi hle => ?_⟩
  exact isActive?_of_bounds hs hhold (Levelled.bounds hlevel) hstate hi hle

/-- Two frames of the blinker, before its gate is driven. -/
def blinkerDriven : List Operation := [.step, .step, .drive 0 (some true)]

theorem lt_of_reads_blinker {m i : Nat}
    (h : Reads blinker (Operation.forcedAfter blinkerDriven) m i) : m < i := by
  obtain ⟨hfree, p, hp, hm⟩ := h
  match i with
  | 0 => exact absurd hfree (by decide)
  | 1 =>
    cases hp
    rw [List.mem_singleton.1 hm]
    exact Nat.one_pos
  | i + 2 => cases hp

/-- Driving the gate of the blinker cuts its loop. The timer, which has recorded the gate blinking,
is active for good after four frames. -/
theorem settles_blinker : ∃ s, ofParts blinker {} = .ok s ∧
    LoopFree blinker (Operation.forcedAfter blinkerDriven) ∧
    ∀ n, 4 ≤ n → (s.performAll (blinkerDriven ++ List.replicate n .step)).isActive? 1 =
      some true := by
  have hs : ofParts blinker {} = .ok (start (Layout.ofParts blinker) {}) := rfl
  have hloops : LoopFree blinker (Operation.forcedAfter blinkerDriven) := by
    intro i hi
    have hlt : ∀ {a b : Nat},
        Relation.TransGen (Reads blinker (Operation.forcedAfter blinkerDriven)) a b → a < b := by
      intro a b h
      induction h with
      | single h => exact lt_of_reads_blinker h
      | tail _ h ih => exact ih.trans (lt_of_reads_blinker h)
    exact lt_irrefl i (hlt hi)
  refine ⟨_, hs, hloops, fun n hn => ?_⟩
  obtain ⟨level, state, hlevel, -, hstate, -, hsteady⟩ := settles hs blinkerDriven hloops
  have hlevel₀ : level 0 = 1 := hlevel 0 _ rfl
  have hlevel₁ : level 1 = 1 + 2 + max (level 0) 0 := hlevel 1 _ rfl
  have hstate₀ : state 0 = true := hstate 0 _ rfl
  have hstate₁ : state 1 = (state 0 || false) := hstate 1 _ rfl
  have hframes : Operation.frames (List.replicate n .step) = n := List.count_replicate_self
  rw [hsteady (List.replicate n .step) (fun _ _ hm => nomatch List.eq_of_mem_replicate hm) 1
    (by decide) (by omega), hstate₁, hstate₀]
  rfl

end Simulator

end Netlist
