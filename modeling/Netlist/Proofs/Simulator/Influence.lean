/-
Signals travel along connections only, and no faster than the parts on their way let them. If two
runs of a part list drive one part differently from some frame on, then a part can be in different
states only if a path of connections leads to it from the driven one, and only once a change has had
the time to pass along such a path.
-/
import Netlist.Proofs.Simulator.History

namespace Netlist

variable {P : Type}

/-- A path of connections from a part to another one, with its latency: each part behind the first
one takes a frame and its delay. -/
inductive Route (parts : List (Part P)) (source : Nat) : Nat → Nat → Prop
  | start : Route parts source source 0
  | next {v latency w : Nat} {p : Part P} : Route parts source v latency → parts[w]? = some p →
      v ∈ p.connectionsFrom → Route parts source w (latency + (1 + p.cell.delay))

namespace Simulator

variable {parts : List (Part P)} {o o' : SimulatorOptions} {s s' : Simulator}
  {ops ops' : List Operation}

/-- If a part that is driven alike takes different states in a frame, then one of its sources was in
different states when its signal left for the part. -/
theorem exists_source_ne (hs : ofParts parts o = .ok s) (hs' : ofParts parts o' = .ok s') {t q : Nat}
    (ht : t < Operation.frames ops) (ht' : t < Operation.frames ops') {p : Part P}
    (hp : parts[q]? = some p)
    (hforced : Operation.forcedAfter (Operation.upTo t ops) q =
      Operation.forcedAfter (Operation.upTo t ops') q)
    (hne : s.stateAfter ops (t + 1) q ≠ s'.stateAfter ops' (t + 1) q) :
    p.cell.delay ≤ t ∧ ∃ m ∈ p.connectionsFrom,
      s.stateAfter ops (t - p.cell.delay) m ≠ s'.stateAfter ops' (t - p.cell.delay) m := by
  obtain ⟨hq, -⟩ := List.getElem?_eq_some_iff.1 hp
  by_contra hsame
  apply hne
  rw [stateAfter_succ hs ht hq, stateAfter_succ hs' ht' hq, hforced, response_upTo hs ht.le hp,
    response_upTo hs' ht'.le hp]
  have hsources : p.cell.delay ≤ t → ∀ m ∈ p.connectionsFrom,
      s.stateAfter ops (t - p.cell.delay) m = s'.stateAfter ops' (t - p.cell.delay) m := by
    intro hle m hm
    by_contra hdiff
    exact hsame ⟨hle, m, hm, hdiff⟩
  congr 1
  cases hc : p.cell with
  | gate mode =>
    rw [hc] at hsources
    exact congrArg mode.evaluate (List.map_congr_left (hsources (Nat.zero_le t)))
  | timer ticks seconds =>
    rw [hc, Cell.delay, framesPerSecond, Nat.mul_comm] at hsources
    by_cases hle : 40 * seconds + ticks ≤ t
    · simp only [hle, decide_true, Bool.true_and]
      exact any_congr_mem (hsources hle)
    · simp [hle]

/-- Where two runs differ that drive only one part differently, and only after `start` frames, a
signal has had the time to get there. -/
theorem exists_route_of_ne (hs : ofParts parts o = .ok s) (hs' : ofParts parts o' = .ok s')
    {driven start : Nat} : ∀ {t q : Nat}, t ≤ Operation.frames ops → t ≤ Operation.frames ops' →
    (∀ u < t, ∀ i < parts.length, u < start ∨ i ≠ driven →
      Operation.forcedAfter (Operation.upTo u ops) i =
        Operation.forcedAfter (Operation.upTo u ops') i) →
    q < parts.length → s.stateAfter ops t q ≠ s'.stateAfter ops' t q →
    ∃ latency, Route parts driven q latency ∧ start + 1 + latency ≤ t := by
  intro t
  induction t using Nat.strong_induction_on with
  | _ t ih =>
    intro q ht ht' hagree hq hne
    cases t with
    | zero => exact absurd ((stateAfter_zero hs ops hq).trans (stateAfter_zero hs' ops' hq).symm) hne
    | succ t =>
      by_cases hdriven : start ≤ t ∧ q = driven
      · obtain ⟨hle, rfl⟩ := hdriven
        exact ⟨0, .start, by omega⟩
      · have hp : parts[q]? = some parts[q] := List.getElem?_eq_getElem hq
        have hforced := hagree t (Nat.lt_succ_self t) q hq (by omega)
        obtain ⟨hle, m, hm, hdiff⟩ := exists_source_ne hs hs' ht ht' hp hforced hne
        have hm' : m < parts.length := (ofParts_eq_ok.1 hs).1.source _ (List.getElem_mem hq) m hm
        obtain ⟨latency, hroute, hlatency⟩ := ih (t - parts[q].cell.delay) (by omega) (by omega)
          (by omega) (fun u hu => hagree u (by omega)) hm' hdiff
        exact ⟨_, hroute.next hp hm, by omega⟩

/-- Signals travel only along connections and no faster than their latency. Two runs, in whatever
ranges their parts are split, drive all parts alike in the first `start` frames and all parts but
one after them. If a part is in different states after frame `t`, then `t` is beyond `start`, and a
path of connections leads from the one driven part to it whose latency fits into the frames between
them. So parts to which no path leads are never affected. -/
theorem differs_only_along_route (hs : ofParts parts o = .ok s) (hs' : ofParts parts o' = .ok s')
    {driven start t q : Nat} (ht : t ≤ Operation.frames ops) (ht' : t ≤ Operation.frames ops')
    (hagree : ∀ u < t, ∀ i < parts.length, u < start ∨ i ≠ driven →
      Operation.forcedAfter (Operation.upTo u ops) i =
        Operation.forcedAfter (Operation.upTo u ops') i)
    (hne : (s.performAll (Operation.upTo t ops)).isActive? q ≠
      (s'.performAll (Operation.upTo t ops')).isActive? q) :
    start < t ∧ ∃ latency, Route parts driven q latency ∧ start + 1 + latency ≤ t := by
  have hq : q < parts.length := by
    by_contra hq
    have hnone : ∀ {o : SimulatorOptions} {s : Simulator}, ofParts parts o = .ok s →
        ∀ ops, (s.performAll ops).isActive? q = none := by
      intro o s hs ops
      have hf := follows_performAll hs ops
      refine Array.getElem?_eq_none ?_
      rw [hf.sound.active, hf.layout, Layout.size_ofParts]
      exact Nat.le_of_not_lt hq
    exact hne ((hnone hs _).trans (hnone hs' _).symm)
  have hstate : s.stateAfter ops t q ≠ s'.stateAfter ops' t q := by
    intro heq
    rw [stateAfter_eq hs ops t hq, stateAfter_eq hs' ops' t hq] at heq
    apply hne
    rw [isActive?_performAll hs _ hq, isActive?_performAll hs' _ hq, heq]
  obtain ⟨latency, hroute, hlatency⟩ := exists_route_of_ne hs hs' ht ht' hagree hq hstate
  exact ⟨by omega, latency, hroute, hlatency⟩

/-- The gate of the blinker is held inactive from the second frame on in the second run, which its
timer can show in the fifth frame. -/
theorem differs_only_along_route_blinker : ∃ s, ofParts blinker {} = .ok s ∧
    (s.performAll (Operation.upTo 5 (List.replicate 5 .step))).isActive? 1 ≠
      (s.performAll (Operation.upTo 5 ([.step, .drive 0 (some false)] ++ List.replicate 4 .step))).isActive? 1 ∧
    ∃ latency, Route blinker 0 1 latency ∧ 1 + 1 + latency ≤ 5 := by
  have hs : ofParts blinker {} = .ok (start (Layout.ofParts blinker) {}) := rfl
  have hne : ((start (Layout.ofParts blinker) {}).performAll
      (Operation.upTo 5 (List.replicate 5 .step))).isActive? 1 ≠
    ((start (Layout.ofParts blinker) {}).performAll
      (Operation.upTo 5 ([.step, .drive 0 (some false)] ++ List.replicate 4 .step))).isActive? 1 := by
    rw [isActive?_performAll hs _ (by decide), isActive?_performAll hs _ (by decide)]
    decide
  exact ⟨_, hs, hne, (differs_only_along_route hs hs (by decide) (by decide) (by decide) hne).2⟩

end Simulator

end Netlist
