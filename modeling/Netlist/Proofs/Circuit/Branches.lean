/-
How deep a survey walks. Every listed node ends a path of listed nodes from the root with fewer
nodes than the budget, and a node is cut off only at the end of a path without repetition that has
at least as many. A path without repetition has at most all nodes of the circuit.
-/
import Mathlib.Tactic
import Netlist.Proofs.Circuit.Survey

namespace Netlist

variable {P : Type}

namespace Circuit

/-! ## Paths -/

/-- The second node is behind a port of the first one or at the other end of one of its edges. -/
def Adjacent (c : Circuit P) (n m : NodeId) : Prop := ∃ node, c.node? n = some node ∧ m ∈ node.neighbours

instance (c : Circuit P) (n m : NodeId) : Decidable (c.Adjacent n m) :=
  match hn : c.node? n with
  | none => isFalse fun ⟨_, hnode, _⟩ => nomatch hn.symm.trans hnode
  | some node => decidable_of_iff (m ∈ node.neighbours)
      ⟨fun hm => ⟨node, hn, hm⟩, fun ⟨_, hnode, hm⟩ => Option.some.inj (hn.symm.trans hnode) ▸ hm⟩

/-- The nodes on the way from a root to a node, both included. -/
inductive Path (c : Circuit P) (root : NodeId) : List NodeId → NodeId → Prop where
  | root : Path c root [root] root
  | next {path : List NodeId} {n m : NodeId} (h : Path c root path n) (hm : c.Adjacent n m) :
      Path c root (path ++ [m]) m

variable {c : Circuit P} {root maxDepth : Nat}

theorem Path.mono {c' : Circuit P} (hmono : ∀ n m, c.Adjacent n m → c'.Adjacent n m) {path : List NodeId}
    {n : NodeId} (h : c.Path root path n) : c'.Path root path n := by
  induction h with
  | root => exact .root
  | next _ hm ih => exact ih.next (hmono _ _ hm)

theorem Path.mem {path : List NodeId} {n : NodeId} (h : c.Path root path n) : n ∈ path := by
  cases h <;> simp

theorem Path.lt_size (hports : c.PortsExist) (hc : c.WellWired) (hroot : root < c.size) {path : List NodeId}
    {n : NodeId} (h : c.Path root path n) : ∀ v ∈ path, v < c.size := by
  induction h with
  | root => simpa using hroot
  | next _ hm ih =>
    intro v hv
    rcases List.mem_append.1 hv with hv | hv
    · exact ih v hv
    · obtain ⟨node, hnode, hm⟩ := hm
      rw [List.mem_singleton.1 hv]
      exact neighbours_lt hports hc.mirrored hnode hm

theorem Path.length_le_size (hports : c.PortsExist) (hc : c.WellWired) (hroot : root < c.size)
    {path : List NodeId} {n : NodeId} (h : c.Path root path n) (hnodup : path.Nodup) :
    path.length ≤ c.size := by
  have hsub : path ⊆ List.range c.size := fun v hv => List.mem_range.2 (h.lt_size hports hc hroot v hv)
  simpa using hnodup.length_le_of_subset hsub

theorem reflTransGen_iff_path {n : NodeId} :
    Relation.ReflTransGen c.Adjacent root n ↔ ∃ path, c.Path root path n := by
  constructor
  · intro h
    induction h with
    | refl => exact ⟨_, .root⟩
    | tail _ hm ih =>
      obtain ⟨path, hpath⟩ := ih
      exact ⟨_, hpath.next hm⟩
  · rintro ⟨path, hpath⟩
    induction hpath with
    | root => exact .refl
    | next _ hm ih => exact ih.tail hm

/-! ## Branches -/

/-- A node at the end of a path of listed nodes that is shorter than the budget. -/
def Reached (c : Circuit P) (root maxDepth : Nat) (found : Survey) (n : NodeId) : Prop :=
  ∃ path, c.Path root path n ∧ path.length < maxDepth ∧ ∀ v ∈ path, found.Lists v

/-- An entry of the stack: a branch of listed nodes without repetition, as many as there are entries below,
and the nodes that may continue it. -/
def Branch (c : Circuit P) (root : NodeId) (found : Survey) (below : Nat) (frame : List NodeId) : Prop :=
  ∃ path : List NodeId, path.length = below ∧ path.Nodup ∧ (∀ v ∈ path, found.Lists v) ∧
    ∀ m ∈ frame, c.Path root (path ++ [m]) m

variable {found found' : Survey} {n : NodeId}

theorem Reached.mono (hmono : ∀ v, found.Lists v → found'.Lists v) (h : c.Reached root maxDepth found n) :
    c.Reached root maxDepth found' n := by
  obtain ⟨path, hpath, hlength, hlisted⟩ := h
  exact ⟨path, hpath, hlength, fun v hv => hmono v (hlisted v hv)⟩

theorem Branch.mono {below : Nat} {frame : List NodeId} (hmono : ∀ v, found.Lists v → found'.Lists v)
    (h : c.Branch root found below frame) : c.Branch root found' below frame := by
  obtain ⟨path, hlength, hnodup, hlisted, hnext⟩ := h
  exact ⟨path, hlength, hnodup, fun v hv => hmono v (hlisted v hv), hnext⟩

/-! ## The survey so far -/

/-- What holds of the branches while a survey walks. The root is listed, cut off or still to come,
and every cut ends a path of at least as many nodes as the budget. -/
structure Branching (c : Circuit P) (root maxDepth : Nat) (found : Survey)
    (stack : List (List NodeId)) : Prop where
  start : found.Meets stack root
  branch : ∀ frame below, frame :: below <:+ stack → c.Branch root found below.length frame
  listed : ∀ n, found.Lists n → c.Reached root maxDepth found n
  cuts : ∀ e ∈ found.diagnostics, ∃ m path, e = .depthExhausted m maxDepth ∧ c.Path root path m ∧
    path.Nodup ∧ maxDepth ≤ path.length
  containers : found.containers.toList.Nodup

namespace Branching

variable {below : List (List NodeId)} {siblings : List NodeId}

theorem leave (h : c.Branching root maxDepth found ([] :: below)) :
    c.Branching root maxDepth found below where
  start := Survey.meets_leave.1 h.start
  branch frame rest hframe := h.branch frame rest (hframe.trans (List.suffix_cons ..))
  listed := h.listed
  cuts := h.cuts
  containers := h.containers

theorem branch_rest (h : c.Branching root maxDepth found ((n :: siblings) :: below)) :
    ∀ frame rest, frame :: rest <:+ siblings :: below → c.Branch root found rest.length frame := by
  intro frame rest hframe
  rcases List.suffix_cons_iff.1 hframe with heq | hframe
  · obtain ⟨rfl, rfl⟩ := List.cons.inj heq
    obtain ⟨path, hlength, hnodup, hlisted, hnext⟩ := h.branch _ _ List.suffix_rfl
    exact ⟨path, hlength, hnodup, hlisted, fun m hm => hnext m (List.mem_cons_of_mem _ hm)⟩
  · exact h.branch frame rest (hframe.trans (List.suffix_cons ..))

theorem skip (h : c.Branching root maxDepth found ((n :: siblings) :: below)) (hn : found.Lists n) :
    c.Branching root maxDepth found (siblings :: below) where
  start := by
    rcases Survey.meets_next.1 h.start with rfl | hroot
    · exact Or.inl hn
    · exact hroot
  branch := h.branch_rest
  listed := h.listed
  cuts := h.cuts
  containers := h.containers

theorem exists_path (h : c.Branching root maxDepth found ((n :: siblings) :: below))
    (hn : ¬ found.Lists n) : ∃ path, path.length = below.length ∧ (path ++ [n]).Nodup ∧
      (∀ v ∈ path, found.Lists v) ∧ c.Path root (path ++ [n]) n := by
  obtain ⟨path, hlength, hnodup, hlisted, hnext⟩ := h.branch _ _ List.suffix_rfl
  -- all nodes of the branch are listed, so a node that is not comes on it for the first time
  refine ⟨path, hlength, ?_, hlisted, hnext n (List.mem_cons_self ..)⟩
  rw [← List.concat_eq_append]
  exact hnodup.concat fun hmem => hn (hlisted n hmem)

theorem cut (h : c.Branching root maxDepth found ((n :: siblings) :: below)) (hn : ¬ found.Lists n)
    (hdepth : maxDepth ≤ below.length + 1) : c.Branching root maxDepth (found.cut n maxDepth) (siblings :: below) where
  start := (Survey.meets_cut maxDepth).2 (Survey.meets_next.1 h.start)
  branch := h.branch_rest
  listed := h.listed
  cuts e he := by
    rcases Array.mem_push.1 he with he | rfl
    · exact h.cuts e he
    · obtain ⟨path, hlength, hnodup, -, hpath⟩ := h.exists_path hn
      refine ⟨n, path ++ [n], rfl, hpath, hnodup, ?_⟩
      simp only [List.length_append, List.length_singleton]
      omega
  containers := h.containers

/-- A fresh node within the budget is reached by the branch that leads to it, and continues it. -/
theorem enter (h : c.Branching root maxDepth found ((n :: siblings) :: below)) (hn : ¬ found.Lists n)
    (hdepth : ¬ maxDepth ≤ below.length + 1) {node : Node P} (hnode : c.node? n = some node) :
    c.Branching root maxDepth (found.list n node) (node.neighbours :: siblings :: below) := by
  have hmono : ∀ v, found.Lists v → (found.list n node).Lists v := fun v hv =>
    Survey.lists_list.2 (Or.inr hv)
  obtain ⟨path, hlength, hnodup, hlisted, hpath⟩ := h.exists_path hn
  have hlisted' : ∀ v ∈ path ++ [n], (found.list n node).Lists v := by
    intro v hv
    rcases List.mem_append.1 hv with hv | hv
    · exact hmono v (hlisted v hv)
    · exact Survey.lists_list.2 (Or.inl (List.mem_singleton.1 hv))
  constructor
  · exact Survey.meets_list (Survey.meets_next.1 h.start) _
  · intro frame rest hframe
    rcases List.suffix_cons_iff.1 hframe with heq | hframe
    · obtain ⟨rfl, rfl⟩ := List.cons.inj heq
      refine ⟨path ++ [n], by simpa using hlength, hnodup, hlisted', fun m hm => ?_⟩
      exact hpath.next ⟨node, hnode, hm⟩
    · exact (h.branch_rest frame rest hframe).mono hmono
  · intro m hm
    rcases Survey.lists_list.1 hm with rfl | hm
    · refine ⟨path ++ [m], hpath, ?_, hlisted'⟩
      simp only [List.length_append, List.length_singleton]
      omega
    · exact (h.listed m hm).mono hmono
  · intro e he
    refine h.cuts e ?_
    unfold Survey.list at he
    split at he <;> exact he
  · unfold Survey.list
    split
    · exact h.containers
    · exact nodup_push h.containers fun hmem => hn (Or.inr hmem)

end Branching

theorem branching_surveyFrom {seen : NodeSet} {stack : List (List NodeId)} {depth : Nat}
    {hdepth : depth = stack.length} (hseen : c.Surveying seen found stack) (h : c.Branching root maxDepth found stack)
    (h' : c.surveyFrom maxDepth seen found stack depth hdepth = .ok found') : c.Branching root maxDepth found' [] := by
  fun_induction surveyFrom c maxDepth seen found stack depth hdepth with
  | case1 seen found =>
    cases h'
    exact h
  | case2 seen found below _ ih => exact ih hseen.leave h.leave h'
  | case3 seen found n siblings below hn _ ih => exact ih (hseen.skip hn) (h.skip ((hseen.seen n).1 hn)) h'
  | case4 seen found n siblings below hn hdepth _ ih =>
    have hfresh : ¬ found.Lists n := fun hl => hn ((hseen.seen n).2 hl)
    exact ih (hseen.cut maxDepth) (h.cut hfresh hdepth) h'
  | case5 => cases h'
  | case6 seen found n siblings below hn node hnode hdepth _ ih =>
    have hfresh : ¬ found.Lists n := fun hl => hn ((hseen.seen n).2 hl)
    have hnode := fetch_eq_ok.1 hnode
    exact ih (hseen.enter hn hnode) (h.enter hfresh hdepth hnode) h'

/-! ## Surveys -/

theorem branching_survey (h : c.survey root maxDepth = .ok found) :
    c.Branching root maxDepth found [] := by
  refine branching_surveyFrom (surveying_start c root) ?_ h
  constructor
  · exact Or.inr (Or.inr ⟨_, List.mem_singleton_self _, List.mem_singleton_self _⟩)
  · intro frame below hframe
    obtain ⟨rfl, rfl⟩ : frame = [root] ∧ below = [] := by
      rcases List.suffix_cons_iff.1 hframe with heq | hframe
      · exact List.cons.inj heq
      · cases List.suffix_nil.1 hframe
    refine ⟨[], rfl, List.nodup_nil, by simp, fun m hm => ?_⟩
    rw [List.mem_singleton.1 hm]
    exact .root
  · intro n hn
    simp [Survey.Lists] at hn
  · simp
  · simp

theorem Branching.cuts_iff (h : c.Branching root maxDepth found []) {m : NodeId} :
    found.Cuts m ↔ .depthExhausted m maxDepth ∈ found.diagnostics := by
  constructor
  · rintro ⟨d, hd⟩
    obtain ⟨m', path, heq, -⟩ := h.cuts _ hd
    cases heq
    exact hd
  · exact fun hm => ⟨maxDepth, hm⟩

end Circuit

end Netlist
