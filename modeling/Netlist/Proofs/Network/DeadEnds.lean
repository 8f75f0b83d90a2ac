/-
Which leaves the cascade removes: exactly the dead ends, which are not pinned and feed nothing but
dead ends. A leaf that is looked at before its targets are gone is looked at again when the last of
them goes, so nothing depends on the order of the list. With this, what elimination keeps is told
by the edges and the pins alone, whatever the passes.
-/
import Netlist.Proofs.Network.Survivors

namespace Netlist

variable {P : Type}

namespace Network

/-- A listed leaf that is not pinned and feeds nothing but dead ends. -/
inductive DeadEnd (net : Network P) : NodeId → Prop where
  | intro {n : NodeId} (hn : n ∈ net.leaves) (hp : net.circuit.isPinned n = false)
      (htargets : ∀ m ∈ net.wires.targets n, DeadEnd net m) : DeadEnd net n

variable {net net' : Network P} {keep : NodeId → Bool}

/-! ## The cascade -/

/-- What holds in a cascade once the leaves in `done` have had their turn: dead ends only are
removed, and a leaf that has become a dead end is removed or will be looked at. -/
structure Settling (net : Network P) (done : List NodeId) (removed : NodeSet) (pending : List NodeId) :
    Prop where
  dead : ∀ n, removed.contains n = true → net.DeadEnd n
  listed : ∀ n ∈ pending, n ∈ net.leaves
  settled : ∀ n ∈ done, net.circuit.isPinned n = false →
    (∀ m ∈ net.wires.targets n, removed.contains m = true) → removed.contains n = true ∨ n ∈ pending

namespace Settling

variable {state : Cascade} {removed : NodeSet} {done pending rest : List NodeId} {n : NodeId}

/-- A leaf that is removed already, or that still feeds a leaf, is left alone. -/
theorem skip (h : Settling net done removed (n :: rest))
    (hn : net.circuit.isPinned n = false → (∀ m ∈ net.wires.targets n, removed.contains m = true) →
      removed.contains n = true) : Settling net done removed rest := by
  refine ⟨h.dead, fun m hm => h.listed m (List.mem_cons_of_mem _ hm), fun m hm hp hgone => ?_⟩
  rcases h.settled m hm hp hgone with hr | hm
  · exact Or.inl hr
  rcases List.mem_cons.1 hm with rfl | hm
  · exact Or.inl (hn hp hgone)
  · exact Or.inr hm

/-- When a leaf is removed, its sources are looked at, and no other leaf has lost a target. -/
theorem remove (hnet : net.Sound) (hc : Cascading net state) (h : Settling net done state.removed (n :: rest))
    (hfresh : ¬ state.removed.contains n = true) (hdead : net.circuit.isDeadEnd state.wires n = true) :
    Settling net done (state.removed.insert n) (state.wires.sources n ++ rest) := by
  obtain ⟨hempty, hpinned⟩ := targets_of_isDeadEnd hdead
  have hgone := hc.targets_removed hfresh hempty
  have hsources := hc.wires.sources n
  rw [if_pos (by simpa using hfresh)] at hsources
  refine ⟨fun m hm => ?_, fun m hm => ?_, fun m hm hp htargets => ?_⟩
  · rw [NodeSet.contains_insert, Bool.or_eq_true, beq_iff_eq] at hm
    rcases hm with rfl | hm
    · exact .intro (h.listed _ (List.mem_cons_self ..)) hpinned fun k hk => h.dead k (hgone k hk)
    · exact h.dead m hm
  · rcases List.mem_append.1 hm with hm | hm
    · rw [hsources] at hm
      exact (hnet.mem_of_mem_sources (List.mem_of_mem_filter hm)).1
    · exact h.listed m (List.mem_cons_of_mem _ hm)
  · rw [NodeSet.contains_insert, Bool.or_eq_true, beq_iff_eq]
    by_cases hmem : n ∈ net.wires.targets m
    · -- a source of the removed leaf is removed already, or it is among the sources that are left
      cases hr : state.removed.contains m with
      | true => exact Or.inl (Or.inr rfl)
      | false =>
        refine Or.inr (List.mem_append_left _ ?_)
        rw [hsources]
        exact List.mem_filter.2 ⟨hnet.mirror.mem_iff.2 hmem, by rw [hr]; rfl⟩
    · have hbefore : ∀ k ∈ net.wires.targets m, state.removed.contains k = true := by
        intro k hk
        have hk' := htargets k hk
        rw [NodeSet.contains_insert, Bool.or_eq_true, beq_iff_eq] at hk'
        exact hk'.resolve_left fun heq => hmem (heq ▸ hk)
      rcases h.settled m hm hp hbefore with hr | hm
      · exact Or.inl (Or.inr hr)
      rcases List.mem_cons.1 hm with rfl | hm
      · exact Or.inl (Or.inl rfl)
      · exact Or.inr (List.mem_append_right _ hm)

end Settling

/-- A listed leaf that is not pinned and has lost all of its targets is a dead end of what is left. -/
theorem isDeadEnd_of_targets (hnet : net.Sound) {state : Cascade} (hc : Cascading net state) {n : NodeId}
    (hn : n ∈ net.leaves) (hp : net.circuit.isPinned n = false)
    (hgone : ∀ m ∈ net.wires.targets n, state.removed.contains m = true) :
    net.circuit.isDeadEnd state.wires n = true := by
  have hempty : state.wires.targets n = [] := by
    rw [hc.wires.targets]
    split
    · exact List.filter_eq_nil_iff.2 fun m hm => by simp [hgone m hm]
    · rfl
  obtain ⟨node, hnode⟩ := Circuit.node?_of_lt (hnet.lt_size n hn)
  have hleaf : node.isLeaf = true := (Circuit.isLeaf_eq hnode).trans (hnet.leaf n hn)
  have hunpinned : node.pinned = false := by simpa [Circuit.isPinned, hnode] using hp
  simp [Circuit.isDeadEnd, hnode, hleaf, hempty, hunpinned]

theorem settling_cascadeFrom (hnet : net.Sound) {done : List NodeId} {state : Cascade} (hc : Cascading net state)
    {pending : List NodeId} (h : Settling net done state.removed pending) :
    Settling net done (cascadeFrom net.circuit state pending).removed [] := by
  fun_induction cascadeFrom net.circuit state pending with
  | case1 => exact h
  | case2 state n rest hn ih => exact ih hc (h.skip fun _ _ => hn)
  | case3 state n rest hfresh hdead sources ih =>
    exact ih (hc.remove hnet hfresh hdead) (h.remove hnet hc hfresh hdead)
  | case4 state n rest hfresh hdead ih =>
    have hn := h.listed n (List.mem_cons_self ..)
    exact ih hc (h.skip fun hp hgone => absurd (isDeadEnd_of_targets hnet hc hn hp hgone) hdead)

theorem settling_cascade (hnet : net.Sound) : Settling net net.leaves net.cascade.removed [] := by
  -- the induction is on the leaves whose turn is still to come
  have key : ∀ (leaves done : List NodeId) (state : Cascade), (∀ n ∈ leaves, n ∈ net.leaves) →
      Cascading net state → Settling net done state.removed [] → Settling net (done ++ leaves)
        (leaves.foldl (fun state leaf => cascadeFrom net.circuit state [leaf]) state).removed [] := by
    intro leaves
    induction leaves with
    | nil =>
      intro done state _ _ h
      rwa [List.append_nil]
    | cons leaf leaves ih =>
      intro done state hlisted hc h
      have hturn : Settling net (done ++ [leaf]) state.removed [leaf] := by
        refine ⟨h.dead, fun n hn => ?_, fun n hn hp hgone => ?_⟩
        · rw [List.mem_singleton.1 hn]
          exact hlisted leaf (List.mem_cons_self ..)
        · rcases List.mem_append.1 hn with hn | hn
          · exact (h.settled n hn hp hgone).imp id nofun
          · exact Or.inr hn
      have hrest := ih (done ++ [leaf]) _ (fun n hn => hlisted n (List.mem_cons_of_mem _ hn))
        (cascading_cascadeFrom hnet hc [leaf]) (settling_cascadeFrom hnet hc hturn)
      rwa [List.append_assoc] at hrest
  exact key net.leaves [] _ (fun _ hn => hn) ⟨by simpa using Wires.Restricts.refl net.wires, by simp, by simp⟩
    ⟨by simp, nofun, nofun⟩

/-- The cascade removes exactly the dead ends. -/
theorem contains_cascade (hnet : net.Sound) (n : NodeId) :
    net.cascade.removed.contains n = true ↔ net.DeadEnd n := by
  have h := settling_cascade hnet
  constructor
  · exact h.dead n
  · intro hn
    induction hn with
    | intro hn hp _ ih => exact (h.settled _ hn hp ih).resolve_right nofun

/-! ## Both passes -/

/-- A listed leaf that elimination keeps. -/
def Survives (net : Network P) (o : CompileOptions) (n : NodeId) : Prop :=
  n ∈ net.leaves ∧
    (o.deadEnds = true → if o.deadLoops = true then net.ReachesPinned n else ¬ net.DeadEnd n)

theorem mem_eliminate (hnet : net.Sound) (o : CompileOptions) (n : NodeId) :
    n ∈ (net.eliminate o).leaves ↔ net.Survives o n := by
  unfold eliminate Survives
  split
  · next hends =>
    split
    · next hloops =>
      obtain ⟨keep, hkeep, hprunes⟩ := prunes_both hnet
      rw [hprunes.mem_leaves, hkeep]
      simp [hends]
    · next hloops =>
      rw [(prunes_removeDeadEnds hnet).mem_leaves, ← contains_cascade hnet]
      simp [hends]
  · next hends => simp [hends]

end Network

end Netlist
