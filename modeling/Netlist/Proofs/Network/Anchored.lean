/-
What the removal of dead ends keeps, on its own: exactly the leaves from which edges lead to a
pinned leaf or to a loop. A leaf without such a way feeds a finite graph without loops whose last
leaves feed nothing and are not pinned, so it loses all of its targets. The result does not depend
on the order in which the leaves are listed.
-/
import Netlist.Proofs.Network.DeadEnds
import Netlist.Proofs.Network.Passes
import Netlist.Proofs.Sequence

namespace Netlist

open Relation (ReflTransGen TransGen)

variable {P : Type}

namespace Network

/-! ## Ways to pinned leaves and loops -/

/-- An edge of the compiled network. -/
def Feeds (net : Network P) (a b : NodeId) : Prop := b ∈ net.wires.targets a

/-- Edges, or none, lead from the leaf to a leaf that is pinned or on a loop. -/
def Anchored (net : Network P) (n : NodeId) : Prop :=
  ∃ m ∈ net.leaves, ReflTransGen net.Feeds n m ∧ (net.circuit.isPinned m = true ∨ TransGen net.Feeds m m)

variable {net : Network P} {n : NodeId}

theorem Anchored.mem_leaves (h : net.Anchored n) (hnet : net.Sound) : n ∈ net.leaves := by
  obtain ⟨m, hm, hlead, -⟩ := h
  rcases ReflTransGen.cases_head hlead with rfl | ⟨k, hk, -⟩
  · exact hm
  · exact (hnet.joins n k hk).1

/-- A leaf that is not pinned itself feeds one that is anchored too. -/
theorem Anchored.exists_next (h : net.Anchored n) (hp : net.circuit.isPinned n = false) :
    ∃ k, net.Feeds n k ∧ net.Anchored k := by
  obtain ⟨m, hm, hlead, hend⟩ := h
  rcases ReflTransGen.cases_head hlead with rfl | ⟨k, hk, hrest⟩
  · -- the way ends at the leaf itself, so it is on a loop
    have hloop : TransGen net.Feeds n n := hend.resolve_left (by simp [hp])
    obtain ⟨k, hk, hrest⟩ := TransGen.head'_iff.1 hloop
    exact ⟨k, hk, n, hm, hrest, Or.inr hloop⟩
  · exact ⟨k, hk, m, hm, hrest, hend⟩

/-! ## Dead ends -/

theorem DeadEnd.not_anchored (h : net.DeadEnd n) : ¬ net.Anchored n := by
  induction h with
  | intro hn hp _ ih =>
    intro hanchored
    obtain ⟨k, hk, hnext⟩ := hanchored.exists_next hp
    exact ih k hk hnext

/-- Where no way leads to a loop, the targets come to an end, and the leaves die from there on. -/
theorem deadEnd_of_not_anchored (hnet : net.Sound) (hn : n ∈ net.leaves) (h : ¬ net.Anchored n) :
    net.DeadEnd n := by
  -- the edges that `n` leads to, from target to source
  let below (b a : NodeId) : Prop := net.Feeds a b ∧ ReflTransGen net.Feeds n a
  have hfeeds : ∀ a b, TransGen below b a → TransGen net.Feeds a b ∧ ReflTransGen net.Feeds n a := by
    intro a b hab
    induction hab with
    | single hab => exact ⟨.single hab.1, hab.2⟩
    | tail _ hbc ih => exact ⟨.head hbc.1 ih.1, hbc.2⟩
  have hacyclic : ∀ a, ¬ TransGen below a a := by
    intro a ha
    obtain ⟨hloop, hlead⟩ := hfeeds a a ha
    obtain ⟨k, hk, -⟩ := TransGen.head'_iff.1 hloop
    exact h ⟨a, (hnet.joins a k hk).1, hlead, Or.inr hloop⟩
  have hwf := wellFounded_of_acyclic (fun b a hab => (hnet.joins a b hab.1).2) hacyclic
  have hdead : ∀ m, ReflTransGen net.Feeds n m → m ∈ net.leaves → net.DeadEnd m := by
    intro m
    induction m using hwf.induction with
    | _ m ih =>
      intro hlead hm
      have hp : net.circuit.isPinned m = false := by
        cases hpinned : net.circuit.isPinned m with
        | false => rfl
        | true => exact absurd ⟨m, hm, hlead, Or.inl hpinned⟩ h
      exact .intro hm hp fun k hk => ih k ⟨hk, hlead⟩ (hlead.tail hk) (hnet.joins m k hk).2
  exact hdead n .refl hn

/-! ## The pass -/

/-- The pass keeps the anchored leaves. -/
theorem prunes_anchored (hnet : net.Sound) {keep : NodeId → Bool} (hkeep : ∀ n, keep n = true ↔ net.Anchored n) :
    Prunes net keep net.removeDeadEnds := by
  refine (prunes_removeDeadEnds hnet).congr hnet fun n hn => ?_
  rw [Bool.eq_iff_iff, hkeep, Bool.not_eq_true', Bool.eq_false_iff, ne_eq, contains_cascade hnet]
  exact ⟨fun hdead => by_contra fun h => hdead (deadEnd_of_not_anchored hnet hn h),
    fun hanchored hdead => hdead.not_anchored hanchored⟩

/-- An unpinned leaf stays because it feeds a leaf that stays. -/
theorem targets_ne_nil_of_anchored (hnet : net.Sound) (h : net.Anchored n) (hp : net.circuit.isPinned n = false) :
    net.removeDeadEnds.wires.targets n ≠ [] := by
  classical
  have hprunes := prunes_anchored hnet fun n => (decide_eq_true_iff : _ ↔ net.Anchored n)
  obtain ⟨k, hk, hnext⟩ := h.exists_next hp
  have hmem : k ∈ net.removeDeadEnds.wires.targets n :=
    hprunes.wires.mem_targets.2 ⟨hk, decide_eq_true h, decide_eq_true hnext⟩
  exact List.ne_nil_of_mem hmem

/-! ## The order of the list -/

section Order

variable {leaves : List NodeId}

theorem Sound.perm (hnet : net.Sound) (h : leaves.Perm net.leaves) : { net with leaves }.Sound where
  nodup := h.nodup_iff.2 hnet.nodup
  leaf n hn := hnet.leaf n (h.mem_iff.1 hn)
  joins a b hab := ⟨h.mem_iff.2 (hnet.joins a b hab).1, h.mem_iff.2 (hnet.joins a b hab).2⟩
  mirror := hnet.mirror

theorem anchored_perm (h : leaves.Perm net.leaves) : { net with leaves }.Anchored n ↔ net.Anchored n :=
  ⟨fun ⟨m, hm, hlead⟩ => ⟨m, h.mem_iff.1 hm, hlead⟩, fun ⟨m, hm, hlead⟩ => ⟨m, h.mem_iff.2 hm, hlead⟩⟩

/-- The same leaves in another order lose the same edges. -/
theorem wires_removeDeadEnds_perm (hnet : net.Sound) (h : leaves.Perm net.leaves) :
    { net with leaves }.removeDeadEnds.wires = net.removeDeadEnds.wires := by
  classical
  have hprunes := prunes_anchored hnet fun n => (decide_eq_true_iff : _ ↔ net.Anchored n)
  have hprunes' : Prunes _ (fun n => decide (net.Anchored n)) { net with leaves }.removeDeadEnds :=
    prunes_anchored (hnet.perm h) fun n => decide_eq_true_iff.trans (anchored_perm h).symm
  obtain ⟨hforward, hbackward⟩ := net.size_cascade
  obtain ⟨hforward', hbackward'⟩ := { net with leaves }.size_cascade
  exact hprunes'.wires.unique hprunes.wires (hforward'.trans hforward.symm) (hbackward'.trans hbackward.symm)

end Order

/-! ## Compiled networks -/

/-- The thicket compiled without elimination, and what each pass keeps of it. -/
theorem exists_compiled_thicket : ∃ start net, ofRoot thicket 5 = .ok start ∧
    start.performAll [.compile ⟨6, false, true⟩] = .ok net ∧ net.leaves = [0, 1, 2, 4, 3] ∧
    net.removeDeadEnds.leaves = [0, 1, 2, 3] ∧ net.pruneDeadLoops.leaves = [0, 3] := by
  have hports : thicket.PortsExist := of_decide_eq_true (by cbv)
  have hroot : 5 < thicket.size := of_decide_eq_true (by cbv)
  have hrun : (ofRoot thicket 5 >>= (performAll · [.compile ⟨6, false, true⟩])).toOption.map
      (fun net => (net.leaves, net.removeDeadEnds.leaves, net.pruneDeadLoops.leaves)) =
      some ([0, 1, 2, 4, 3], [0, 1, 2, 3], [0, 3]) := by cbv
  obtain ⟨start, hstart, hcoherent⟩ := coherent_ofRoot built_thicket.wellWired hports hroot
  obtain ⟨net, hnet, -, -⟩ := hcoherent.performAll [.compile ⟨6, false, true⟩]
  rw [hstart] at hrun
  simp only [bind, Except.bind, hnet] at hrun
  obtain ⟨hlisted, hleft⟩ := Prod.mk.inj (Option.some.inj hrun)
  obtain ⟨hends, hloops⟩ := Prod.mk.inj hleft
  exact ⟨start, net, hstart, hnet, hlisted, hends, hloops⟩

/-- In any state after a compilation, the removal of dead ends keeps exactly the anchored leaves, in
their order and with their positions as ids, and the edges between them. A leaf that stays is pinned
or feeds another one, no pinned leaf goes, and from the same leaves in another order the same ones
are kept, with the same edges. -/
theorem removeDeadEnds_keeps_anchored {c : Circuit P} (hc : c.Built) {root : NodeId} {start net : Network P}
    (hstart : ofRoot c root = .ok start) {passes : List Pass} (hcompiled : ∃ o, .compile o ∈ passes)
    (hnet : start.performAll passes = .ok net) :
    ∃ keep : NodeId → Bool, (∀ n, keep n = true ↔ net.Anchored n) ∧
      net.removeDeadEnds.leaves = net.leaves.filter keep ∧
      (∀ n, net.removeDeadEnds.idOf? n =
        if keep n then some (net.removeDeadEnds.leaves.idxOf n) else none) ∧
      (∀ n, net.removeDeadEnds.wires.targets n = if keep n then (net.wires.targets n).filter keep else []) ∧
      (∀ n, net.removeDeadEnds.wires.sources n = if keep n then (net.wires.sources n).filter keep else []) ∧
      (∀ n ∈ net.removeDeadEnds.leaves,
        net.circuit.isPinned n = true ∨ net.removeDeadEnds.wires.targets n ≠ []) ∧
      (∀ n ∈ net.leaves, net.circuit.isPinned n = true → n ∈ net.removeDeadEnds.leaves) ∧
      ∀ leaves : List NodeId, leaves.Perm net.leaves →
        { net with leaves }.removeDeadEnds.leaves = leaves.filter keep ∧
        { net with leaves }.removeDeadEnds.wires = net.removeDeadEnds.wires ∧
        ∀ n, { net with leaves }.removeDeadEnds.idOf? n =
          if keep n then some ((leaves.filter keep).idxOf n) else none := by
  classical
  obtain ⟨horderly, hnumbered⟩ := orderly_performAll hc.wellWired hstart hnet
  have hsound := horderly.sound
  let keep (n : NodeId) : Bool := decide (net.Anchored n)
  have hkeep : ∀ n, keep n = true ↔ net.Anchored n := fun n => decide_eq_true_iff
  have hprunes := prunes_anchored hsound hkeep
  have hmem : ∀ n, n ∈ net.removeDeadEnds.leaves ↔ keep n = true := fun n => by
    rw [hprunes.mem_leaves]
    exact ⟨And.right, fun hn => ⟨((hkeep n).1 hn).mem_leaves hsound, hn⟩⟩
  refine ⟨keep, hkeep, hprunes.leaves, (numbered_removeDeadEnds hsound (hnumbered hcompiled).strays).idOf?_eq hmem,
    hprunes.wires.targets, hprunes.wires.sources, fun n hn => ?_,
    fun n hn hp => hprunes.mem_leaves.2 ⟨hn, hprunes.pinned n hn hp⟩, fun leaves hperm => ?_⟩
  · cases hp : net.circuit.isPinned n with
    | true => exact Or.inl rfl
    | false => exact Or.inr (targets_ne_nil_of_anchored hsound ((hkeep n).1 ((hmem n).1 hn)) hp)
  · have hsound' := hsound.perm hperm
    have hprunes' := prunes_anchored hsound' fun n => (hkeep n).trans (anchored_perm hperm).symm
    have hstrays : { net with leaves }.NoStrays := fun n hn =>
      (hnumbered hcompiled).strays n fun hmem => hn (hperm.mem_iff.2 hmem)
    refine ⟨hprunes'.leaves, wires_removeDeadEnds_perm hsound hperm, ?_⟩
    rw [← hprunes'.leaves]
    refine (numbered_removeDeadEnds hsound' hstrays).idOf?_eq fun n => ?_
    rw [hprunes'.leaves, List.mem_filter, hperm.mem_iff, ← List.mem_filter, ← hprunes.leaves, hmem]

/-- The gate that feeds nothing goes, and the loop that reaches no pinned leaf stays. -/
theorem removeDeadEnds_keeps_anchored_thicket : thicket.Built ∧
    (∃ o, Pass.compile o ∈ [Pass.compile ⟨6, false, true⟩]) ∧
    ∃ start net keep, ofRoot thicket 5 = .ok start ∧
      start.performAll [.compile ⟨6, false, true⟩] = .ok net ∧ (∀ n, keep n = true ↔ net.Anchored n) ∧
      net.leaves = [0, 1, 2, 4, 3] ∧ net.removeDeadEnds.leaves = [0, 1, 2, 3] ∧
      net.removeDeadEnds.leaves = net.leaves.filter keep ∧
      { net with leaves := net.leaves.reverse }.removeDeadEnds.leaves = net.leaves.reverse.filter keep ∧
      { net with leaves := net.leaves.reverse }.removeDeadEnds.wires = net.removeDeadEnds.wires := by
  have hcompiled : ∃ o, Pass.compile o ∈ [Pass.compile ⟨6, false, true⟩] := ⟨_, List.mem_singleton_self _⟩
  obtain ⟨start, net, hstart, hnet, hlisted, hkept, -⟩ := exists_compiled_thicket
  obtain ⟨keep, hkeep, hleaves, -, -, -, -, -, horder⟩ :=
    removeDeadEnds_keeps_anchored built_thicket hstart hcompiled hnet
  obtain ⟨hleaves', hwires, -⟩ := horder net.leaves.reverse (List.reverse_perm _)
  exact ⟨built_thicket, hcompiled, start, net, keep, hstart, hnet, hkeep, hlisted, hkept, hleaves, hleaves',
    hwires⟩

end Network

end Netlist
