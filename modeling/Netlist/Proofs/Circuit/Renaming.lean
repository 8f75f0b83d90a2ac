/-
Circuits whose nodes have other names. The names of nodes are places in the order of creation, so a
permutation of the nodes gives a circuit that is the same but for that order. A survey compares
names with each other and looks up nodes by them; it does nothing else with a name. So it walks a
renamed circuit in the same way, and lists and cuts off the same nodes under their other names.
-/
import Mathlib.Data.List.Count
import Mathlib.Logic.Equiv.Defs
import Netlist.Proofs.Circuit.Survey

namespace Netlist

variable {P : Type} {σ : NodeId → NodeId}

/-! ## Other names -/

/-- The slot with other names for its nodes. -/
def Port.rename (σ : NodeId → NodeId) : Port → Port
  | single n => single (σ n)
  | bus ns => bus (ns.map σ)

@[simp] theorem Port.nodes_rename (port : Port) : (port.rename σ).nodes = port.nodes.map σ := by
  cases port <;> rfl

namespace Node

/-- The node with other names in its ports and edges. -/
def rename (σ : NodeId → NodeId) (node : Node P) : Node P :=
  { node with
    inputs := node.inputs.map (Port.rename σ)
    outputs := node.outputs.map (Port.rename σ)
    forward := node.forward.map σ
    backward := node.backward.map σ }

theorem isLeaf_rename (node : Node P) : (node.rename σ).isLeaf = node.isLeaf := rfl

theorem exposed_rename (node : Node P) (side : Side) :
    (node.rename σ).exposed side = (node.exposed side).map σ := by
  cases side <;> simp [exposed, slots, rename, List.map_flatMap, List.flatMap_map]

theorem neighbours_rename (node : Node P) : (node.rename σ).neighbours = node.neighbours.map σ := by
  rw [neighbours, neighbours, exposed_rename, exposed_rename]
  simp [rename]

end Node

/-- The nodes of a set under other names make another one. -/
structure NodeSet.Renames (σ : NodeId → NodeId) (s s' : NodeSet) : Prop where
  contains : ∀ n, s'.contains (σ n) = s.contains n

namespace NodeSet.Renames

theorem empty (σ : NodeId → NodeId) : NodeSet.Renames σ {} {} :=
  ⟨fun n => by rw [contains_empty, contains_empty]⟩

theorem insert (hσ : σ.Injective) {s s' : NodeSet} (h : NodeSet.Renames σ s s') (n : NodeId) :
    NodeSet.Renames σ (s.insert n) (s'.insert (σ n)) := by
  refine ⟨fun m => ?_⟩
  rw [contains_insert, contains_insert, h.contains, hσ.beq_eq]

theorem ofList (hσ : σ.Injective) (ns : List NodeId) :
    NodeSet.Renames σ (NodeSet.ofList ns) (NodeSet.ofList (ns.map σ)) := by
  refine ⟨fun n => ?_⟩
  rw [contains_ofList, contains_ofList]
  simp [hσ.eq_iff]

end NodeSet.Renames

namespace Circuit

/-! ## Renamed circuits -/

/-- The nodes of a circuit under other names make another one. -/
structure Renames (σ : NodeId → NodeId) (c c' : Circuit P) : Prop where
  node : ∀ n, c'.node? (σ n) = (c.node? n).map (Node.rename σ)

namespace Renames

variable {c c' : Circuit P}

theorem fetch (h : Renames σ c c') {n : NodeId} {node : Node P} (hn : c.fetch n = .ok node) :
    c'.fetch (σ n) = .ok (node.rename σ) := by
  rw [fetch_eq_ok, h.node, fetch_eq_ok.1 hn]
  rfl

theorem isPinned_eq (h : Renames σ c c') (n : NodeId) : c'.isPinned (σ n) = c.isPinned n := by
  unfold isPinned
  rw [h.node]
  cases c.node? n <;> rfl

theorem forwardOf_eq (h : Renames σ c c') (n : NodeId) : c'.forwardOf (σ n) = (c.forwardOf n).map σ := by
  unfold forwardOf
  rw [h.node]
  cases c.node? n <;> simp [Node.rename]

theorem backwardOf_eq (h : Renames σ c c') (n : NodeId) : c'.backwardOf (σ n) = (c.backwardOf n).map σ := by
  unfold backwardOf
  rw [h.node]
  cases c.node? n <;> simp [Node.rename]

theorem withoutIds (h : Renames σ c c') : Renames σ (Network.withoutIds c) (Network.withoutIds c') := by
  refine ⟨fun n => ?_⟩
  rw [Network.node?_withoutIds, Network.node?_withoutIds, h.node, Option.map_map, Option.map_map]
  rfl

theorem setId (hσ : σ.Injective) (h : Renames σ c c') (n : NodeId) (i : Option Nat) :
    Renames σ (c.modify n ({ · with id := i })) (c'.modify (σ n) ({ · with id := i })) := by
  refine ⟨fun m => ?_⟩
  rw [node?_modify, node?_modify, h.node]
  by_cases hm : n = m
  · rw [if_pos hm, if_pos (congrArg σ hm), Option.map_map, Option.map_map]
    rfl
  · rw [if_neg hm, if_neg fun heq => hm (hσ heq)]

end Renames

/-! ## Permutations -/

/-- The names that a permutation of the nodes of a circuit gives. -/
def naming (c : Circuit P) (p : Equiv.Perm (Fin c.size)) (n : NodeId) : NodeId :=
  if h : n < c.size then p ⟨n, h⟩ else n

/-- The circuit whose nodes have moved to their places under a permutation, with the new names in
all ports and edges. -/
def permute (c : Circuit P) (p : Equiv.Perm (Fin c.size)) : Circuit P :=
  ⟨Array.ofFn fun i : Fin c.size =>
    have hi : (p.symm i).1 < c.nodes.size := (p.symm i).2
    (c.nodes[(p.symm i).1]).rename (c.naming p)⟩

section Permute

variable {c : Circuit P} {p : Equiv.Perm (Fin c.size)}

theorem naming_of_lt {n : NodeId} (h : n < c.size) : c.naming p n = p ⟨n, h⟩ := dif_pos h

theorem naming_lt_iff {n : NodeId} : c.naming p n < c.size ↔ n < c.size := by
  unfold naming
  split
  · next h => exact ⟨fun _ => h, fun _ => (p ⟨n, h⟩).2⟩
  · exact Iff.rfl

theorem naming_injective : (c.naming p).Injective := by
  intro n m heq
  have hiff : n < c.size ↔ m < c.size := by
    rw [← naming_lt_iff (p := p), heq, naming_lt_iff]
  by_cases hn : n < c.size
  · have hm := hiff.1 hn
    rw [naming_of_lt hn, naming_of_lt hm] at heq
    exact congrArg Fin.val (p.injective (Fin.ext heq))
  · rw [naming, naming, dif_neg hn, dif_neg fun hm => hn (hiff.2 hm)] at heq
    exact heq

theorem naming_surjective : (c.naming p).Surjective := by
  intro n
  by_cases hn : n < c.size
  · refine ⟨p.symm ⟨n, hn⟩, ?_⟩
    rw [naming_of_lt (p.symm ⟨n, hn⟩).2, Fin.eta, Equiv.apply_symm_apply]
  · exact ⟨n, dif_neg hn⟩

@[simp] theorem size_permute (c : Circuit P) (p : Equiv.Perm (Fin c.size)) : (c.permute p).size = c.size :=
  Array.size_ofFn

theorem renames_permute (c : Circuit P) (p : Equiv.Perm (Fin c.size)) :
    Renames (c.naming p) c (c.permute p) := by
  refine ⟨fun n => ?_⟩
  by_cases hn : n < c.size
  · have hmoved : (p ⟨n, hn⟩).1 < (c.permute p).nodes.size :=
      Nat.lt_of_lt_of_eq (p ⟨n, hn⟩).2 (size_permute c p).symm
    rw [naming_of_lt hn, node?, node?, Array.getElem?_eq_getElem hmoved, Array.getElem?_eq_getElem hn]
    simp only [permute, Array.getElem_ofFn, Fin.eta, Equiv.symm_apply_apply, Option.map_some]
    rfl
  · have hn' : ¬ c.naming p n < (c.permute p).size := by rwa [size_permute, naming_lt_iff]
    rw [node?, node?, Array.getElem?_eq_none (Nat.le_of_not_lt hn), Array.getElem?_eq_none (Nat.le_of_not_lt hn')]
    rfl

theorem mirrored_permute (hc : c.Mirrored) : (c.permute p).Mirrored := by
  intro a b
  obtain ⟨a, rfl⟩ := naming_surjective (p := p) a
  obtain ⟨b, rfl⟩ := naming_surjective (p := p) b
  rw [(renames_permute c p).forwardOf_eq, (renames_permute c p).backwardOf_eq,
    List.count_map_of_injective _ _ naming_injective, List.count_map_of_injective _ _ naming_injective]
  exact hc a b

theorem portsExist_permute (hports : c.PortsExist) : (c.permute p).PortsExist := by
  intro node hnode m hm
  obtain ⟨i, rfl⟩ := Array.mem_ofFn.1 hnode
  rw [Node.exposed_rename, Node.exposed_rename, ← List.map_append] at hm
  obtain ⟨k, hk, rfl⟩ := List.mem_map.1 hm
  rw [size_permute, naming_lt_iff]
  exact hports _ (Array.getElem_mem _) k hk

end Permute

end Circuit

/-! ## Surveys -/

/-- Two surveys that have listed the same nodes and cut off the same nodes, under different names. -/
structure Survey.Renames (σ : NodeId → NodeId) (maxDepth : Nat) (found found' : Survey) : Prop where
  leaves : found'.leaves.toList = found.leaves.toList.map σ
  containers : found'.containers.toList = found.containers.toList.map σ
  cuts : ∃ cuts : List NodeId, found.diagnostics.toList = cuts.map (.depthExhausted · maxDepth) ∧
    found'.diagnostics.toList = cuts.map fun n => .depthExhausted (σ n) maxDepth

namespace Survey.Renames

variable {maxDepth : Nat} {found found' : Survey}

theorem start (σ : NodeId → NodeId) (maxDepth : Nat) : Survey.Renames σ maxDepth {} {} :=
  ⟨rfl, rfl, [], rfl, rfl⟩

theorem list (h : Survey.Renames σ maxDepth found found') (n : NodeId) (node : Node P) :
    Survey.Renames σ maxDepth (found.list n node) (found'.list (σ n) (node.rename σ)) := by
  unfold Survey.list
  rw [Node.isLeaf_rename]
  split
  · exact ⟨by simp [h.leaves], h.containers, h.cuts⟩
  · exact ⟨h.leaves, by simp [h.containers], h.cuts⟩

theorem cut (h : Survey.Renames σ maxDepth found found') (n : NodeId) :
    Survey.Renames σ maxDepth (found.cut n maxDepth) (found'.cut (σ n) maxDepth) := by
  obtain ⟨cuts, hcuts, hcuts'⟩ := h.cuts
  refine ⟨h.leaves, h.containers, cuts ++ [n], ?_, ?_⟩
  · simp [Survey.cut, hcuts]
  · simp [Survey.cut, hcuts']

end Survey.Renames

namespace Circuit

variable {c c' : Circuit P} {maxDepth : Nat}

/-- The stack of a survey with other names for the nodes to visit. -/
def renameStack (σ : NodeId → NodeId) (stack : List (List NodeId)) : List (List NodeId) :=
  stack.map fun frame => frame.map σ

theorem length_renameStack (σ : NodeId → NodeId) (stack : List (List NodeId)) :
    (renameStack σ stack).length = stack.length :=
  List.length_map _

/-- A survey goes through a renamed circuit step by step as through the circuit itself. -/
theorem Renames.surveyFrom (hσ : σ.Injective) (h : Renames σ c c') {seen seen' : NodeSet}
    (hseen : NodeSet.Renames σ seen seen') {found found' : Survey}
    (hfound : Survey.Renames σ maxDepth found found') {stack : List (List NodeId)} {depth : Nat}
    {hdepth : depth = stack.length} {result : Survey}
    (hrun : c.surveyFrom maxDepth seen found stack depth hdepth = .ok result) :
    ∃ result', c'.surveyFrom maxDepth seen' found' (renameStack σ stack) depth
        (hdepth.trans (length_renameStack σ stack).symm) = .ok result' ∧
      Survey.Renames σ maxDepth result result' := by
  -- the walk through the renamed circuit takes the same case in every step, because a name is seen
  -- exactly if the old one was, and depths do not change
  fun_induction Circuit.surveyFrom c maxDepth seen found stack depth hdepth generalizing seen' found' with
  | case1 seen found =>
    cases hrun
    exact ⟨found', surveyFrom_nil _, hfound⟩
  | case2 seen found below _ ih =>
    obtain ⟨result', hresult, hrenames⟩ := ih hseen hfound hrun
    exact ⟨result', (surveyFrom_leave _).trans hresult, hrenames⟩
  | case3 seen found n siblings below hn _ ih =>
    obtain ⟨result', hresult, hrenames⟩ := ih hseen hfound hrun
    exact ⟨result', (surveyFrom_of_seen _ ((hseen.contains n).trans hn)).trans hresult, hrenames⟩
  | case4 seen found n siblings below hn hdepth _ ih =>
    obtain ⟨result', hresult, hrenames⟩ := ih hseen (hfound.cut n) hrun
    exact ⟨result', (surveyFrom_of_deep _ (by rwa [hseen.contains]) hdepth).trans hresult, hrenames⟩
  | case5 => cases hrun
  | case6 seen found n siblings below hn node hnode hdepth _ ih =>
    obtain ⟨result', hresult, hrenames⟩ := ih (hseen.insert hσ n) (hfound.list n node) hrun
    refine ⟨result', (surveyFrom_of_fresh _ (by rwa [hseen.contains]) hdepth (h.fetch hnode)).trans ?_, hrenames⟩
    simp only [Node.neighbours_rename]
    exact hresult

theorem Renames.survey (hσ : σ.Injective) (h : Renames σ c c') {root : NodeId} {found : Survey}
    (hfound : c.survey root maxDepth = .ok found) :
    ∃ found', c'.survey (σ root) maxDepth = .ok found' ∧ Survey.Renames σ maxDepth found found' :=
  h.surveyFrom hσ (.empty σ) (.start σ maxDepth) hfound

end Circuit

end Netlist
