/-
Elimination takes leaves away that no remaining leaf reads. The cascade removes a leaf once all of
its targets are gone, and the pruning of dead loops keeps the sources of everything that it keeps.
So both passes leave a part of the network that is closed under sources and holds the pinned
leaves, with all edges between its leaves.
-/
import Netlist.Proofs.Network.Ids
import Netlist.Proofs.Network.Wires

namespace Netlist

variable {P : Type}

namespace Network

/-! ## Sound networks -/

/-- The listed leaves are leaves, each listed once, and the compiled edges join them and are the
same on both ends. -/
structure Sound (net : Network P) : Prop where
  nodup : net.leaves.Nodup
  leaf : ∀ n ∈ net.leaves, (net.circuit.cell? n).isSome
  joins : ∀ a b, b ∈ net.wires.targets a → a ∈ net.leaves ∧ b ∈ net.leaves
  mirror : net.wires.Mirror

theorem Sound.mem_of_mem_sources {net : Network P} (h : net.Sound) {a b : NodeId}
    (hab : a ∈ net.wires.sources b) : a ∈ net.leaves ∧ b ∈ net.leaves :=
  h.joins a b (h.mirror.mem_iff.1 hab)

theorem Sound.lt_size {net : Network P} (h : net.Sound) : ∀ n ∈ net.leaves, n < net.circuit.size :=
  fun n hn => Circuit.lt_size_of_cell? (h.leaf n hn)

/-! ## What a pass leaves -/

/-- `net'` is what is left of `net` when only the leaves in `keep` stay. Pinned leaves stay, and so
do the sources of leaves that stay. -/
structure Prunes (net : Network P) (keep : NodeId → Bool) (net' : Network P) : Prop where
  leaves : net'.leaves = net.leaves.filter keep
  wires : net.wires.Restricts keep net'.wires
  circuit : withoutIds net'.circuit = withoutIds net.circuit
  pinned : ∀ n ∈ net.leaves, net.circuit.isPinned n = true → keep n = true
  closed : ∀ n ∈ net.leaves, keep n = true → ∀ m ∈ net.wires.sources n, keep m = true

namespace Prunes

variable {net net' net'' : Network P} {keep keep' : NodeId → Bool}

theorem refl (net : Network P) : Prunes net (fun _ => true) net where
  leaves := (List.filter_eq_self.2 fun _ _ => rfl).symm
  wires := .refl net.wires
  circuit := rfl
  pinned _ _ _ := rfl
  closed _ _ _ _ _ := rfl

theorem mem_leaves (h : Prunes net keep net') {n : NodeId} :
    n ∈ net'.leaves ↔ n ∈ net.leaves ∧ keep n = true := by
  rw [h.leaves, List.mem_filter]

/-- A leaf that stays keeps its sources. -/
theorem sources_eq (h : Prunes net keep net') {n : NodeId} (hn : n ∈ net'.leaves) :
    net'.wires.sources n = net.wires.sources n := by
  obtain ⟨hmem, hkeep⟩ := h.mem_leaves.1 hn
  exact h.wires.sources_eq hkeep (h.closed n hmem hkeep)

theorem cell?_eq (h : Prunes net keep net') (n : NodeId) :
    net'.circuit.cell? n = net.circuit.cell? n :=
  (sameWiring_of_withoutIds h.circuit).cell n

theorem trans (h : Prunes net keep net') (h' : Prunes net' keep' net'') :
    Prunes net (fun n => keep n && keep' n) net'' where
  leaves := by
    rw [h'.leaves, h.leaves, List.filter_filter]
    exact List.filter_congr fun n _ => Bool.and_comm ..
  wires := h.wires.trans h'.wires
  circuit := h'.circuit.trans h.circuit
  pinned n hn hp := by
    have hkeep := h.pinned n hn hp
    rw [hkeep, Bool.true_and]
    refine h'.pinned n (h.mem_leaves.2 ⟨hn, hkeep⟩) ?_
    rwa [isPinned_of_withoutIds h.circuit]
  closed n hn hk m hm := by
    obtain ⟨hkeep, hkeep'⟩ := Bool.and_eq_true_iff.1 hk
    have hn' := h.mem_leaves.2 ⟨hn, hkeep⟩
    have hm' : m ∈ net'.wires.sources n := by rwa [h.sources_eq hn']
    rw [h.closed n hn hkeep m hm, h'.closed n hn' hkeep' m hm']
    rfl

theorem sound (h : Prunes net keep net') (hnet : net.Sound) : net'.Sound where
  nodup := h.leaves ▸ hnet.nodup.filter keep
  leaf n hn := by
    rw [h.cell?_eq]
    exact hnet.leaf n (h.mem_leaves.1 hn).1
  joins a b hab := by
    obtain ⟨hmem, ha, hb⟩ := h.wires.mem_targets.1 hab
    obtain ⟨ha', hb'⟩ := hnet.joins a b hmem
    exact ⟨h.mem_leaves.2 ⟨ha', ha⟩, h.mem_leaves.2 ⟨hb', hb⟩⟩
  mirror := h.wires.mirror hnet.mirror

/-- Only the listed leaves matter. -/
theorem congr (h : Prunes net keep net') (hnet : net.Sound) (heq : ∀ n ∈ net.leaves, keep n = keep' n) :
    Prunes net keep' net' where
  leaves := by rw [h.leaves, List.filter_congr heq]
  wires := h.wires.congr hnet.mirror fun a b hab =>
    ⟨heq a (hnet.joins a b hab).1, heq b (hnet.joins a b hab).2⟩
  circuit := h.circuit
  pinned n hn hp := (heq n hn).symm.trans (h.pinned n hn hp)
  closed n hn hk m hm := by
    rw [← heq m (hnet.mem_of_mem_sources hm).1]
    exact h.closed n hn ((heq n hn).trans hk) m hm

end Prunes

/-! ## Dead ends -/

/-- What holds in a cascade: the removed leaves have lost their edges, none of them is pinned, and
everything that they fed was removed before. -/
structure Cascading (net : Network P) (state : Cascade) : Prop where
  wires : net.wires.Restricts (!state.removed.contains ·) state.wires
  unpinned : ∀ n, state.removed.contains n = true → net.circuit.isPinned n = false
  closed : ∀ n, state.removed.contains n = true → ∀ m ∈ net.wires.targets n,
    state.removed.contains m = true

theorem targets_of_isDeadEnd {c : Circuit P} {w : Wires} {n : NodeId} (h : c.isDeadEnd w n = true) :
    w.targets n = [] ∧ c.isPinned n = false := by
  unfold Circuit.isDeadEnd at h
  split at h
  · next node hnode =>
    simp only [Bool.and_eq_true, List.isEmpty_iff, Bool.not_eq_true'] at h
    exact ⟨h.1.2, by simp [Circuit.isPinned, hnode, h.2]⟩
  · cases h

/-- A leaf of what is left that feeds nothing has lost all of its targets. -/
theorem Cascading.targets_removed {net : Network P} {state : Cascade} (h : Cascading net state) {n : NodeId}
    (hfresh : ¬ state.removed.contains n = true) (hempty : state.wires.targets n = []) :
    ∀ m ∈ net.wires.targets n, state.removed.contains m = true := by
  have hleft := h.wires.targets n
  rw [hempty, if_pos (by simpa using hfresh)] at hleft
  intro m hm
  simpa using List.filter_eq_nil_iff.1 hleft.symm m hm

/-- Removing a dead end. Its targets are gone in the edges that are left, so they were removed. -/
theorem Cascading.remove {net : Network P} (hnet : net.Sound) {state : Cascade} (h : Cascading net state)
    {n : NodeId} (hfresh : ¬ state.removed.contains n = true)
    (hdead : net.circuit.isDeadEnd state.wires n = true) :
    Cascading net ⟨state.wires.detachSources n, state.removed.insert n⟩ := by
  obtain ⟨htargets, hpinned⟩ := targets_of_isDeadEnd hdead
  have hgone := h.targets_removed hfresh htargets
  have hdetach := Wires.restricts_detachSources (h.wires.mirror hnet.mirror) htargets
  refine ⟨(h.wires.trans hdetach).congr hnet.mirror fun a b _ => ?_, fun m hm => ?_, fun m hm k hk => ?_⟩
  · simp [bne, Bool.and_comm]
  · rw [NodeSet.contains_insert, Bool.or_eq_true, beq_iff_eq] at hm
    rcases hm with rfl | hm
    · exact hpinned
    · exact h.unpinned m hm
  · rw [NodeSet.contains_insert, Bool.or_eq_true, beq_iff_eq] at hm ⊢
    rcases hm with rfl | hm
    · exact Or.inr (hgone k hk)
    · exact Or.inr (h.closed m hm k hk)

theorem cascading_cascadeFrom {net : Network P} (hnet : net.Sound) {state : Cascade}
    (h : Cascading net state) (pending : List NodeId) :
    Cascading net (cascadeFrom net.circuit state pending) := by
  fun_induction cascadeFrom net.circuit state pending with
  | case1 => exact h
  | case2 state n rest _ ih => exact ih h
  | case3 state n rest hfresh hdead sources ih => exact ih (h.remove hnet hfresh hdead)
  | case4 state n rest _ _ ih => exact ih h

theorem cascading_cascade {net : Network P} (hnet : net.Sound) : Cascading net net.cascade := by
  have hstart : Cascading net ⟨net.wires, {}⟩ := ⟨by simpa using Wires.Restricts.refl net.wires, by simp, by simp⟩
  exact List.foldlRecOn net.leaves _ hstart fun state h leaf _ => cascading_cascadeFrom hnet h [leaf]

/-- A cascade only shortens the lists of edges. -/
theorem size_cascadeFrom (c : Circuit P) (state : Cascade) (pending : List NodeId) :
    (cascadeFrom c state pending).wires.forward.size = state.wires.forward.size ∧
      (cascadeFrom c state pending).wires.backward.size = state.wires.backward.size := by
  fun_induction cascadeFrom c state pending with
  | case1 => exact ⟨rfl, rfl⟩
  | case2 state n rest _ ih => exact ih
  | case3 state n rest _ _ sources ih =>
    obtain ⟨hforward, hbackward⟩ := state.wires.size_detachSources n
    exact ⟨ih.1.trans hforward, ih.2.trans hbackward⟩
  | case4 state n rest _ _ ih => exact ih

theorem size_cascade (net : Network P) : net.cascade.wires.forward.size = net.wires.forward.size ∧
    net.cascade.wires.backward.size = net.wires.backward.size := by
  refine List.foldlRecOn (motive := fun state : Cascade => state.wires.forward.size = net.wires.forward.size ∧
    state.wires.backward.size = net.wires.backward.size) net.leaves _ ⟨rfl, rfl⟩ fun state h leaf _ => ?_
  obtain ⟨hforward, hbackward⟩ := size_cascadeFrom net.circuit state [leaf]
  exact ⟨hforward.trans h.1, hbackward.trans h.2⟩

theorem prunes_removeDeadEnds {net : Network P} (hnet : net.Sound) :
    Prunes net (!net.cascade.removed.contains ·) net.removeDeadEnds := by
  have h := cascading_cascade hnet
  refine ⟨rfl, h.wires, withoutIds_removeDeadEnds net, fun n _ hp => ?_, fun n _ hk m hm => ?_⟩
  · cases hr : net.cascade.removed.contains n with
    | false => rfl
    | true => simp [h.unpinned n hr] at hp
  · -- a removed source would have lost this leaf first
    cases hr : net.cascade.removed.contains m with
    | false => rfl
    | true => simp [h.closed m hr n (hnet.mirror.mem_iff.1 hm)] at hk

/-! ## Dead loops -/

/-- A node that the walk has added, or will add once it comes to it. -/
def Met (listed live : NodeSet) (pending : List NodeId) (n : NodeId) : Prop :=
  live.contains n = true ∨ (n ∈ pending ∧ listed.contains n = true)

section Met

variable {listed live : NodeSet} {n m : NodeId} {rest : List NodeId}

theorem met_skip (hn : live.contains n = true ∨ ¬ listed.contains n = true)
    (h : Met listed live (n :: rest) m) : Met listed live rest m := by
  rcases h with hm | ⟨hm, hl⟩
  · exact Or.inl hm
  rcases List.mem_cons.1 hm with rfl | hm
  · exact Or.inl (hn.resolve_right (not_not_intro hl))
  · exact Or.inr ⟨hm, hl⟩

theorem met_insert (sources : List NodeId) (h : Met listed live (n :: rest) m) :
    Met listed (live.insert n) (sources ++ rest) m := by
  rw [Met, NodeSet.contains_insert, Bool.or_eq_true, beq_iff_eq]
  rcases h with hm | ⟨hm, hl⟩
  · exact Or.inl (Or.inr hm)
  rcases List.mem_cons.1 hm with rfl | hm
  · exact Or.inl (Or.inl rfl)
  · exact Or.inr ⟨List.mem_append_right _ hm, hl⟩

end Met

/-- The walk adds the listed nodes it starts from, and the listed sources of everything it adds. -/
theorem liveFrom_closed (w : Wires) (listed live : NodeSet) (pending : List NodeId)
    (h : ∀ n, live.contains n = true → ∀ m ∈ w.sources n, listed.contains m = true →
      Met listed live pending m) :
    (∀ n, Met listed live pending n → (liveFrom w listed live pending).contains n = true) ∧
    ∀ n, (liveFrom w listed live pending).contains n = true → ∀ m ∈ w.sources n,
      listed.contains m = true → (liveFrom w listed live pending).contains m = true := by
  fun_induction liveFrom w listed live pending with
  | case1 live => exact ⟨fun n hn => by simpa [Met] using hn, fun n hn m hm hl => by simpa [Met] using h n hn m hm hl⟩
  | case2 live n rest hlive ih =>
    obtain ⟨hadd, hclosed⟩ := ih fun k hk m hm hl => met_skip (Or.inl hlive) (h k hk m hm hl)
    exact ⟨fun k hk => hadd k (met_skip (Or.inl hlive) hk), hclosed⟩
  | case3 live n rest _ hlisted ih =>
    obtain ⟨hadd, hclosed⟩ := ih fun k hk m hm hl => by
      rw [NodeSet.contains_insert, Bool.or_eq_true, beq_iff_eq] at hk
      rcases hk with rfl | hk
      · exact Or.inr ⟨List.mem_append_left _ hm, hl⟩
      · exact met_insert _ (h k hk m hm hl)
    exact ⟨fun k hk => hadd k (met_insert _ hk), hclosed⟩
  | case4 live n rest _ hunlisted ih =>
    obtain ⟨hadd, hclosed⟩ := ih fun k hk m hm hl => met_skip (Or.inr hunlisted) (h k hk m hm hl)
    exact ⟨fun k hk => hadd k (met_skip (Or.inr hunlisted) hk), hclosed⟩

theorem prunes_pruneDeadLoops {net : Network P} (hnet : net.Sound) :
    Prunes net (net.liveLeaves.contains ·) net.pruneDeadLoops := by
  have hlisted : ∀ n, (NodeSet.ofList net.leaves).contains n = true ↔ n ∈ net.leaves := by simp
  obtain ⟨hadd, hclosed⟩ := liveFrom_closed net.wires (NodeSet.ofList net.leaves) {}
    (net.leaves.filter net.circuit.isPinned) (by simp)
  refine ⟨rfl, ?_, withoutIds_pruneDeadLoops net, fun n hn hp => ?_, fun n _ hk m hm => ?_⟩
  · refine (Wires.restricts_detachAll hnet.mirror _).congr hnet.mirror fun a b hab => ?_
    obtain ⟨ha, hb⟩ := hnet.joins a b hab
    simp [ha, hb]
  · exact hadd n (Or.inr ⟨List.mem_filter.2 ⟨hn, hp⟩, (hlisted n).2 hn⟩)
  · exact hclosed n hk m hm ((hlisted m).2 (hnet.mem_of_mem_sources hm).1)

/-! ## Both passes -/

theorem numbered_removeDeadEnds {net : Network P} (hnet : net.Sound) (h : net.NoStrays) :
    net.removeDeadEnds.Numbered :=
  numbered_keepLeaves { net with wires := net.cascade.wires } hnet.nodup hnet.lt_size h _

theorem numbered_pruneDeadLoops {net : Network P} (hnet : net.Sound) (h : net.NoStrays) :
    net.pruneDeadLoops.Numbered :=
  numbered_keepLeaves { net with wires := net.wires.detachAll _ } hnet.nodup hnet.lt_size h _

/-- Whatever a compilation eliminates, no remaining leaf reads it. -/
theorem prunes_eliminate {net : Network P} (hnet : net.Sound) (o : CompileOptions) :
    ∃ keep, Prunes net keep (net.eliminate o) := by
  have hends := prunes_removeDeadEnds hnet
  unfold eliminate
  split
  · split
    · exact ⟨_, hends.trans (prunes_pruneDeadLoops (hends.sound hnet))⟩
    · exact ⟨_, hends⟩
  · exact ⟨_, .refl net⟩

end Network

end Netlist
