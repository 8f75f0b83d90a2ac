/-
Compiling a circuit whose nodes have other names. Elimination and numbering do nothing with a name
but compare it and look it up, so every step gives the same network under the other names. A part
has no names in it, only ids, and the exported list is the same: it does not depend on the order in
which the nodes of a circuit were created.
-/
import Mathlib.Order.Fin.Basic
import Netlist.Proofs.Circuit.Renaming
import Netlist.Proofs.Network.Export
import Netlist.Proofs.Network.Survivors

namespace Netlist

variable {P : Type} {σ : NodeId → NodeId}

/-! ## Edges -/

theorem filter_rename {keep keep' : NodeId → Bool} (h : ∀ n, keep' (σ n) = keep n) (ns : List NodeId) :
    (ns.map σ).filter keep' = (ns.filter keep).map σ := by
  rw [List.filter_map]
  exact congrArg _ (List.filter_congr fun n _ => h n)

/-- The edges between nodes under other names. -/
structure Wires.Renames (σ : NodeId → NodeId) (w w' : Wires) : Prop where
  targets : ∀ n, w'.targets (σ n) = (w.targets n).map σ
  sources : ∀ n, w'.sources (σ n) = (w.sources n).map σ

namespace Wires.Renames

variable {w w' : Wires}

theorem detachSources (hσ : σ.Injective) (h : Wires.Renames σ w w') (n : NodeId) :
    Wires.Renames σ (w.detachSources n) (w'.detachSources (σ n)) := by
  refine ⟨fun m => ?_, fun m => ?_⟩
  · simp only [targets_detachSources, h.sources, h.targets, List.mem_map_of_injective hσ]
    split
    · exact filter_rename (fun k => by simp [bne, hσ.beq_eq]) _
    · rfl
  · simp only [sources_detachSources, h.sources, hσ.eq_iff]
    split <;> rfl

theorem detachTargets (hσ : σ.Injective) (h : Wires.Renames σ w w') (n : NodeId) :
    Wires.Renames σ (w.detachTargets n) (w'.detachTargets (σ n)) := by
  refine ⟨fun m => ?_, fun m => ?_⟩
  · simp only [targets_detachTargets, h.targets, hσ.eq_iff]
    split <;> rfl
  · simp only [sources_detachTargets, h.sources, h.targets, List.mem_map_of_injective hσ]
    split
    · exact filter_rename (fun k => by simp [bne, hσ.beq_eq]) _
    · rfl

theorem detachAll (hσ : σ.Injective) : ∀ {w w' : Wires}, Wires.Renames σ w w' → ∀ ns : List NodeId,
    Wires.Renames σ (w.detachAll ns) (w'.detachAll (ns.map σ))
  | _, _, h, [] => h
  | _, _, h, n :: ns => ((h.detachSources hσ n).detachTargets hσ n).detachAll hσ ns

end Wires.Renames

namespace Network

variable {c c' : Circuit P} {w w' : Wires}

/-! ## Elimination -/

theorem isDeadEnd_rename (h : Circuit.Renames σ c c') (hw : Wires.Renames σ w w') (n : NodeId) :
    c'.isDeadEnd w' (σ n) = c.isDeadEnd w n := by
  unfold Circuit.isDeadEnd
  rw [h.node, hw.targets]
  cases c.node? n with
  | none => rfl
  | some node =>
    dsimp only [Option.map_some]
    rw [Node.isLeaf_rename, List.isEmpty_map]
    rfl

/-- Two cascades that have removed the same leaves under different names. -/
structure Cascade.Renames (σ : NodeId → NodeId) (state state' : Cascade) : Prop where
  wires : Wires.Renames σ state.wires state'.wires
  removed : NodeSet.Renames σ state.removed state'.removed

theorem renames_cascadeFrom (hσ : σ.Injective) (h : Circuit.Renames σ c c') {state state' : Cascade}
    (hstate : Cascade.Renames σ state state') (pending : List NodeId) :
    Cascade.Renames σ (cascadeFrom c state pending) (cascadeFrom c' state' (pending.map σ)) := by
  fun_induction cascadeFrom c state pending generalizing state' with
  | case1 state =>
    rw [List.map_nil, cascadeFrom]
    exact hstate
  | case2 state n rest hn ih =>
    rw [List.map_cons, cascadeFrom, dif_pos ((hstate.removed.contains n).trans hn)]
    exact ih hstate
  | case3 state n rest hn hdead sources =>
    -- the sources that are looked at next are those that are left in both
    rename_i ih
    have hdead' := (isDeadEnd_rename h hstate.wires n).trans hdead
    have hsources : state'.wires.sources (σ n) ++ rest.map σ = (sources ++ rest).map σ := by
      rw [hstate.wires.sources, List.map_append]
    rw [List.map_cons, cascadeFrom, dif_neg (by rwa [hstate.removed.contains]), dif_pos hdead']
    dsimp only
    rw [hsources]
    exact ih ⟨hstate.wires.detachSources hσ n, hstate.removed.insert hσ n⟩
  | case4 state n rest hn hdead ih =>
    have hdead' : ¬ c'.isDeadEnd state'.wires (σ n) = true := by rwa [isDeadEnd_rename h hstate.wires]
    rw [List.map_cons, cascadeFrom, dif_neg (by rwa [hstate.removed.contains]), dif_neg hdead']
    exact ih hstate

theorem renames_liveFrom (hσ : σ.Injective) (hw : Wires.Renames σ w w') {listed listed' live live' : NodeSet}
    (hlisted : NodeSet.Renames σ listed listed') (hlive : NodeSet.Renames σ live live') (pending : List NodeId) :
    NodeSet.Renames σ (liveFrom w listed live pending) (liveFrom w' listed' live' (pending.map σ)) := by
  fun_induction liveFrom w listed live pending generalizing live' with
  | case1 live =>
    rw [List.map_nil, liveFrom]
    exact hlive
  | case2 live n rest hn ih =>
    rw [List.map_cons, liveFrom, dif_pos ((hlive.contains n).trans hn)]
    exact ih hlive
  | case3 live n rest hn hmem ih =>
    rw [List.map_cons, liveFrom, dif_neg (by rwa [hlive.contains]), dif_pos ((hlisted.contains n).trans hmem),
      hw.sources, ← List.map_append]
    exact ih (hlive.insert hσ n)
  | case4 live n rest hn hmem ih =>
    rw [List.map_cons, liveFrom, dif_neg (by rwa [hlive.contains]), dif_neg (by rwa [hlisted.contains])]
    exact ih hlive

/-! ## Ids -/

theorem renames_clearIds (hσ : σ.Injective) : ∀ {c c' : Circuit P}, Circuit.Renames σ c c' → ∀ ns : List NodeId,
    Circuit.Renames σ (clearIds c ns) (clearIds c' (ns.map σ))
  | _, _, h, [] => h
  | _, _, h, n :: ns => renames_clearIds hσ (h.setId hσ n none) ns

theorem renames_numberLeaves (hσ : σ.Injective) (h : Circuit.Renames σ c c') (ns : List NodeId) :
    Circuit.Renames σ (numberLeaves c ns) (numberLeaves c' (ns.map σ)) := by
  have key : ∀ (ns : List NodeId) (k : Nat) (c c' : Circuit P), Circuit.Renames σ c c' → Circuit.Renames σ
      ((ns.zipIdx k).foldl (fun c x => c.modify x.1 ({ · with id := some x.2 })) c)
      (((ns.map σ).zipIdx k).foldl (fun c x => c.modify x.1 ({ · with id := some x.2 })) c') := by
    intro ns
    induction ns with
    | nil => exact fun _ _ _ h => h
    | cons n ns ih => exact fun k _ _ h => ih (k + 1) _ _ (h.setId hσ n (some k))
  exact key ns 0 c c' h

/-! ## Networks -/

/-- Two networks that are the same but for the names of the nodes. -/
structure Renames (σ : NodeId → NodeId) (net net' : Network P) : Prop where
  circuit : Circuit.Renames σ net.circuit net'.circuit
  leaves : net'.leaves = net.leaves.map σ
  containers : net'.containers = net.containers.map σ
  wires : Wires.Renames σ net.wires net'.wires

namespace Renames

variable {net net' : Network P}

theorem keepLeaves (hσ : σ.Injective) (h : Renames σ net net') {keep keep' : NodeId → Bool}
    (hkeep : ∀ n, keep' (σ n) = keep n) : Renames σ (net.keepLeaves keep) (net'.keepLeaves keep') := by
  have hkept : net'.leaves.filter keep' = (net.leaves.filter keep).map σ := by
    rw [h.leaves, filter_rename hkeep]
  have hdropped : net'.leaves.filter (!keep' ·) = (net.leaves.filter (!keep ·)).map σ := by
    rw [h.leaves, filter_rename fun n => by rw [hkeep]]
  refine ⟨?_, hkept, h.containers, h.wires⟩
  rw [Network.keepLeaves, Network.keepLeaves]
  dsimp only
  rw [hkept, hdropped]
  exact renames_numberLeaves hσ (renames_clearIds hσ h.circuit _) _

theorem cascade (hσ : σ.Injective) (h : Renames σ net net') : Cascade.Renames σ net.cascade net'.cascade := by
  have key : ∀ (ns : List NodeId) (state state' : Cascade), Cascade.Renames σ state state' → Cascade.Renames σ
      (ns.foldl (fun state leaf => cascadeFrom net.circuit state [leaf]) state)
      ((ns.map σ).foldl (fun state leaf => cascadeFrom net'.circuit state [leaf]) state') := by
    intro ns
    induction ns with
    | nil => exact fun _ _ hstate => hstate
    | cons n ns ih => exact fun _ _ hstate => ih _ _ (renames_cascadeFrom hσ h.circuit hstate [n])
  rw [Network.cascade, Network.cascade, h.leaves]
  exact key _ _ _ ⟨h.wires, .empty σ⟩

theorem removeDeadEnds (hσ : σ.Injective) (h : Renames σ net net') :
    Renames σ net.removeDeadEnds net'.removeDeadEnds := by
  have hcascade := h.cascade hσ
  have hcut : Renames σ { net with wires := net.cascade.wires } { net' with wires := net'.cascade.wires } :=
    { h with wires := hcascade.wires }
  exact hcut.keepLeaves hσ fun n => by rw [hcascade.removed.contains]

theorem liveLeaves (hσ : σ.Injective) (h : Renames σ net net') :
    NodeSet.Renames σ net.liveLeaves net'.liveLeaves := by
  have hpinned : net'.leaves.filter net'.circuit.isPinned = (net.leaves.filter net.circuit.isPinned).map σ := by
    rw [h.leaves, filter_rename h.circuit.isPinned_eq]
  rw [Network.liveLeaves, Network.liveLeaves, hpinned, h.leaves]
  exact renames_liveFrom hσ h.wires (.ofList hσ _) (.empty σ) _

theorem pruneDeadLoops (hσ : σ.Injective) (h : Renames σ net net') :
    Renames σ net.pruneDeadLoops net'.pruneDeadLoops := by
  have hlive := h.liveLeaves hσ
  have hdead : net'.leaves.filter (!net'.liveLeaves.contains ·) =
      (net.leaves.filter (!net.liveLeaves.contains ·)).map σ := by
    rw [h.leaves, filter_rename fun n => by rw [hlive.contains]]
  have hcut : Renames σ
      { net with wires := net.wires.detachAll (net.leaves.filter (!net.liveLeaves.contains ·)) }
      { net' with wires := net'.wires.detachAll (net'.leaves.filter (!net'.liveLeaves.contains ·)) } := by
    refine { h with wires := ?_ }
    rw [hdead]
    exact h.wires.detachAll hσ _
  exact hcut.keepLeaves hσ hlive.contains

theorem eliminate (hσ : σ.Injective) (h : Renames σ net net') (o : CompileOptions) :
    Renames σ (net.eliminate o) (net'.eliminate o) := by
  unfold Network.eliminate
  split
  · split
    · exact (h.removeDeadEnds hσ).pruneDeadLoops hσ
    · exact h.removeDeadEnds hσ
  · exact h

theorem assignIds (hσ : σ.Injective) (h : Renames σ net net') : Renames σ net.assignIds net'.assignIds := by
  refine { h with circuit := ?_ }
  rw [Network.assignIds, Network.assignIds, h.leaves]
  exact renames_numberLeaves hσ h.circuit _

/-! ## Exported parts -/

theorem idOf?_eq (h : Renames σ net net') (n : NodeId) : net'.idOf? (σ n) = net.idOf? n := by
  unfold idOf?
  rw [h.circuit.node]
  cases net.circuit.node? n <;> rfl

theorem resolve_eq_ok (h : Renames σ net net') {n : NodeId} {id : Nat} (hn : net.resolve n = .ok id) :
    net'.resolve (σ n) = .ok id := by
  unfold resolve at hn ⊢
  rw [h.idOf?_eq]
  split at hn
  · exact hn
  · cases hn

/-- If every entry has a result, then the entries under their other names have the same results. -/
theorem mapM_rename {β : Type} {f f' : NodeId → Except Failure β} (hf : ∀ n b, f n = .ok b → f' (σ n) = .ok b)
    {ns : List NodeId} {bs : List β} (h : ns.mapM f = .ok bs) : (ns.map σ).mapM f' = .ok bs :=
  mapM_eq_ok.2 (List.forall₂_map_left_iff.2 ((mapM_eq_ok.1 h).imp hf))

theorem describe_eq_ok (h : Renames σ net net') {n : NodeId} {part : Part P} (hn : net.describe n = .ok part) :
    net'.describe (σ n) = .ok part := by
  unfold describe at hn ⊢
  obtain ⟨node, hnode, hn⟩ := bind_eq_ok.1 hn
  refine bind_eq_ok.2 ⟨node.rename σ, h.circuit.fetch hnode, ?_⟩
  have hkind : (node.rename σ).kind = node.kind := rfl
  rw [hkind]
  split at hn
  · cases hn
  · obtain ⟨id, hid, hn⟩ := bind_eq_ok.1 hn
    obtain ⟨targets, htargets, hn⟩ := bind_eq_ok.1 hn
    obtain ⟨sources, hsources, hn⟩ := bind_eq_ok.1 hn
    have hresolve : ∀ m id, net.resolve m = .ok id → net'.resolve (σ m) = .ok id := fun _ _ => h.resolve_eq_ok
    refine bind_eq_ok.2 ⟨id, h.resolve_eq_ok hid, bind_eq_ok.2 ⟨targets, ?_, bind_eq_ok.2 ⟨sources, ?_, hn⟩⟩⟩
    · rw [h.wires.targets]
      exact mapM_rename hresolve htargets
    · rw [h.wires.sources]
      exact mapM_rename hresolve hsources

/-- Parts hold ids, not names. -/
theorem parts_eq_ok (h : Renames σ net net') {parts : List (Part P)} (hparts : net.parts = .ok parts) :
    net'.parts = .ok parts := by
  rw [Network.parts, h.leaves]
  exact mapM_rename (fun _ _ => h.describe_eq_ok) hparts

end Renames

/-! ## Compiled networks -/

theorem renames_ofSurvey (hσ : σ.Injective) (h : Circuit.Renames σ c c') (root : NodeId) {maxDepth : Nat}
    {found found' : Survey} (hfound : Survey.Renames σ maxDepth found found') :
    Renames σ (ofSurvey c root found) (ofSurvey c' (σ root) found') := by
  have hlisted : ∀ n, decide (σ n ∈ found'.leaves.toList) = decide (n ∈ found.leaves.toList) := fun n => by
    rw [decide_eq_decide, hfound.leaves, List.mem_map_of_injective hσ]
  have hwires := restricts_ofSurvey c root found
  have hwires' := restricts_ofSurvey c' (σ root) found'
  refine ⟨h, hfound.leaves, hfound.containers, fun n => ?_, fun n => ?_⟩
  · rw [hwires.targets, hwires'.targets, hlisted, Wires.targets_ofCircuit, Wires.targets_ofCircuit, h.forwardOf_eq]
    split
    · exact filter_rename hlisted _
    · rfl
  · rw [hwires.sources, hwires'.sources, hlisted, Wires.sources_ofCircuit, Wires.sources_ofCircuit, h.backwardOf_eq]
    split
    · exact filter_rename hlisted _
    · rfl

/-- Exported parts do not depend on the order in which nodes were created. If the nodes of a circuit
move to other places, then the same leaves and containers are listed and the same branches are cut
off, in the same order and under the new names, and the parts are equal. With both passes, the order
in which removed leaves are gone through does not matter either. -/
theorem compile_permute (c : Circuit P) (hc : c.Mirrored) (hports : c.PortsExist) (p : Equiv.Perm (Fin c.size))
    (root : Fin c.size) (o : CompileOptions) :
    ∃ (start start' net net' : Network P) (cuts : List NodeId) (parts : List (Part P)),
      ofRoot c root = .ok start ∧ ofRoot (c.permute p) (p root) = .ok start' ∧
      start.compile o = .ok net ∧ start'.compile o = .ok net' ∧
      net'.leaves = net.leaves.map (c.naming p) ∧ net'.containers = net.containers.map (c.naming p) ∧
      net.diagnostics = cuts.map (.depthExhausted · o.maxDepth) ∧
      net'.diagnostics = cuts.map (fun n => .depthExhausted (c.naming p n) o.maxDepth) ∧
      net.parts = .ok parts ∧ net'.parts = .ok parts ∧
      ∀ order : List NodeId → List NodeId, (∀ ns, (order ns).Perm ns) →
        start'.compileIn order o.maxDepth = start'.compile ⟨o.maxDepth, true, true⟩ := by
  have hσ : (c.naming p).Injective := Circuit.naming_injective
  have hcircuit := (Circuit.renames_permute c p).withoutIds
  have hc' := Circuit.mirrored_permute (p := p) hc
  have hroot' : (p root : NodeId) < (c.permute p).size := by
    rw [Circuit.size_permute]
    exact (p root).2
  obtain ⟨found, hsurvey, hfound⟩ :=
    @survey_of_mirrored P { circuit := c, root } hc hports root.2 o.maxDepth
  obtain ⟨found', hsurvey', hfound'⟩ := @survey_of_mirrored P { circuit := c.permute p, root := p root }
    hc' (Circuit.portsExist_permute hports) hroot' o.maxDepth
  -- the survey of the permuted circuit is the renamed one
  have hsame : Survey.Renames (c.naming p) o.maxDepth found found' := by
    obtain ⟨other, hother, hrenames⟩ := hcircuit.survey hσ hsurvey
    rw [Circuit.naming_of_lt root.2] at hother
    cases hother.symm.trans hsurvey'
    exact hrenames
  have hnet := ((renames_ofSurvey hσ hcircuit root hsame).eliminate hσ o).assignIds hσ
  rw [Circuit.naming_of_lt root.2] at hnet
  obtain ⟨keep, hcompiled⟩ := @compiled_of_mirrored P found { circuit := c, root } hc hfound o
  have hsound := sound_of_mirrored (mirrored_withoutIds hc) hfound root
  have hsound' := sound_of_mirrored (mirrored_withoutIds hc') hfound' (p root)
  obtain ⟨parts, hparts, -⟩ := parts_eq_ok (hcompiled.prunes.sound hsound) hcompiled.numbered
  obtain ⟨cuts, hcuts, hcuts'⟩ := hsame.cuts
  refine ⟨_, _, _, _, cuts, parts, if_pos root.2, if_pos hroot', compile_of_survey hsurvey,
    compile_of_survey hsurvey', hnet.leaves, hnet.containers, (diagnostics_eliminate _ o).trans hcuts,
    (diagnostics_eliminate _ o).trans hcuts', hparts, hnet.parts_eq_ok hparts, fun order horder => ?_⟩
  have hboth := compile_of_survey (o := ⟨o.maxDepth, true, true⟩) hsurvey'
  exact (compileIn_eq horder hsurvey' hsound').trans hboth.symm

/-- The thicket with its nodes in the reverse order. A budget of four cuts off the gate at the end of
the dead loop twice. -/
theorem compile_permute_thicket : thicket.Mirrored ∧ thicket.PortsExist ∧
    ∃ start start' net net' parts, ofRoot thicket 5 = .ok start ∧
      ofRoot (thicket.permute Fin.revPerm) 0 = .ok start' ∧ start.compile ⟨4, true, false⟩ = .ok net ∧
      start'.compile ⟨4, true, false⟩ = .ok net' ∧ net.leaves = [0, 1, 3] ∧ net'.leaves = [5, 4, 2] ∧
      net'.diagnostics = [.depthExhausted 3 4, .depthExhausted 3 4] ∧
      net.parts = .ok parts ∧ net'.parts = .ok parts ∧ parts.length = 3 := by
  have hports : thicket.PortsExist := of_decide_eq_true (by cbv)
  have hroot : 5 < thicket.size := of_decide_eq_true (by cbv)
  have hmoved : (Fin.revPerm (⟨5, hroot⟩ : Fin thicket.size) : NodeId) = 0 := by cbv
  have hleaves : (ofRoot thicket 5 >>= (compile · ⟨4, true, false⟩)).toOption.map (·.leaves) =
      some [0, 1, 3] := by cbv
  have hparts : (ofRoot thicket 5 >>= (compile · ⟨4, true, false⟩) >>= parts).toOption.map (·.length) =
      some 3 := by cbv
  have hrun : (ofRoot (thicket.permute Fin.revPerm) 0 >>= (compile · ⟨4, true, false⟩)).toOption.map
      (fun net => (net.leaves, net.diagnostics)) =
      some ([5, 4, 2], [.depthExhausted 3 4, .depthExhausted 3 4]) := by cbv
  obtain ⟨start, start', net, net', cuts, parts, hstart, hstart', hnet, hnet', -, -, -, -, hlist, hlist', -⟩ :=
    compile_permute thicket built_thicket.wellWired.mirrored hports Fin.revPerm ⟨5, hroot⟩ ⟨4, true, false⟩
  rw [hmoved] at hstart'
  rw [hstart] at hleaves hparts
  rw [hstart'] at hrun
  simp only [bind, Except.bind, hnet, hnet', hlist] at hleaves hparts hrun
  obtain ⟨hleaves', hcuts⟩ := Prod.mk.inj (Option.some.inj hrun)
  exact ⟨built_thicket.wellWired.mirrored, hports, start, start', net, net', parts, hstart, hstart', hnet, hnet',
    Option.some.inj hleaves, hleaves', hcuts, hlist, hlist', Option.some.inj hparts⟩

end Network

end Netlist
