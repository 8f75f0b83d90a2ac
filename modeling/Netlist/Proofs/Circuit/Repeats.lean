/-
A connection against the plain contract. A connection takes the contract of each pair apart once and
passes it by when it is met again, so that it ends however containers are nested. Where no container
holds itself it joins the same leaves and fails in the same way as the plain contract, which takes a
pair apart each time, but it records fewer edges as soon as a pair with edges is met twice.
-/
import Netlist.Proofs.Circuit.Unfolding

namespace Netlist

open Relation (TransGen)

variable {P : Type}

namespace Circuit

/-! ## Pairs that are met again -/

/-- A pair that is known and met, or that is met twice. -/
def Recurs (known : NodeId × NodeId → Prop) (visited : List (NodeId × NodeId)) (p : NodeId × NodeId) : Prop :=
  known p ∧ p ∈ visited ∨ 1 < visited.count p

theorem recurs_append {known : NodeId × NodeId → Prop} {first next : List (NodeId × NodeId)}
    {p : NodeId × NodeId} : Recurs known (first ++ next) p ↔
      Recurs known first p ∨ Recurs (fun q => known q ∨ q ∈ first) next p := by
  unfold Recurs
  simp only [List.count_append, ← List.count_pos_iff]
  by_cases hknown : known p
  · simp only [hknown, true_and, true_or]
    omega
  · simp only [hknown, false_and, false_or]
    omega

/-- The contract of the pair records no edge. -/
def Idle (c : Circuit P) (lenient : Bool) (p : NodeId × NodeId) : Prop :=
  ∀ run, c.Unfolds lenient [.join p.1 p.2] run → run.edges = []

variable {c : Circuit P} {lenient : Bool} {s r : NodeId} {sender receiver : Node P} {tasks : List Task}
  {run part : Unfolding} {known : NodeId × NodeId → Prop} {recorded edges edges' wanted wanted' visited visited' :
    List (NodeId × NodeId)}

/-- Of the edges that a plain contract wants, on the way over the pairs in `visited`, some are recorded
behind those that were recorded before: in order, at least once each, and all of them unless a pair
with edges is met again. -/
structure Covers (c : Circuit P) (lenient : Bool) (known : NodeId × NodeId → Prop)
    (recorded wanted visited edges : List (NodeId × NodeId)) : Prop where
  sublist : edges.Sublist wanted
  covered : wanted ⊆ recorded ++ edges
  exact : edges = wanted ↔ ∀ p, Recurs known visited p → c.Idle lenient p

namespace Covers

theorem nil : Covers c lenient known recorded [] [] [] where
  sublist := List.Sublist.refl _
  covered := List.nil_subset _
  exact := ⟨fun _ p hp => absurd hp (by simp [Recurs]), fun _ => rfl⟩

/-- An edge is recorded. -/
theorem link {e : NodeId × NodeId} (h : Covers c lenient known (recorded ++ [e]) wanted visited edges) :
    Covers c lenient known recorded (e :: wanted) visited (e :: edges) where
  sublist := h.sublist.cons_cons e
  covered := by
    have hrest : wanted ⊆ recorded ++ e :: edges := by simpa using h.covered
    exact List.cons_subset.2 ⟨by simp, hrest⟩
  exact := by
    rw [← h.exact]
    exact List.cons_inj_right e

/-- A pair that is met for the first time is known from then on. -/
theorem meet {p : NodeId × NodeId} (hp : ¬ known p)
    (h : Covers c lenient (fun q => known q ∨ q = p) recorded wanted visited edges) :
    Covers c lenient known recorded wanted (p :: visited) edges := by
  refine ⟨h.sublist, h.covered, h.exact.trans (forall_congr' fun q => imp_congr_left ?_)⟩
  have hfirst : ¬ Recurs known [p] q := by
    rintro (⟨hq, hmem⟩ | hcount)
    · exact hp (List.mem_singleton.1 hmem ▸ hq)
    · have hle := List.count_le_length (a := q) (l := [p])
      exact absurd (Nat.lt_of_lt_of_le hcount hle) (Nat.lt_irrefl 1)
  have hcons : Recurs known (p :: visited) q ↔ Recurs known ([p] ++ visited) q := Iff.rfl
  rw [hcons, recurs_append, or_iff_right hfirst]
  simp only [List.mem_singleton]

/-- Two stretches of work, one after the other. -/
theorem append (h : Covers c lenient known recorded wanted visited edges)
    (h' : Covers c lenient (fun q => known q ∨ q ∈ visited) (recorded ++ edges) wanted' visited' edges') :
    Covers c lenient known recorded (wanted ++ wanted') (visited ++ visited') (edges ++ edges') where
  sublist := h.sublist.append h'.sublist
  covered := by
    have hfirst : wanted ⊆ recorded ++ edges ++ edges' := List.subset_append_of_subset_left _ h.covered
    rw [← List.append_assoc]
    exact List.append_subset.2 ⟨hfirst, h'.covered⟩
  exact := by
    have hboth : edges ++ edges' = wanted ++ wanted' ↔ edges = wanted ∧ edges' = wanted' := by
      refine ⟨fun heq => ?_, fun ⟨hfirst, hnext⟩ => by rw [hfirst, hnext]⟩
      -- neither part is longer than what is wanted, so neither is shorter
      have hlength := congrArg List.length heq
      rw [List.length_append, List.length_append] at hlength
      have hle := h.sublist.length_le
      have hle' := h'.sublist.length_le
      exact ⟨h.sublist.eq_of_length (by omega), h'.sublist.eq_of_length (by omega)⟩
    rw [hboth, h.exact, h'.exact, ← forall_and]
    exact forall_congr' fun p => by rw [recurs_append, or_imp]

/-- A contract all of whose pairs are known is passed by. -/
theorem pass {p : NodeId × NodeId} (hpart : c.Unfolds lenient [.join p.1 p.2] part) (hsucceeded : part.failure = none)
    (hedges : part.edges ⊆ recorded) (hvisited : ∀ q ∈ part.visited, known q) :
    Covers c lenient known recorded part.edges part.visited [] where
  sublist := List.nil_sublist _
  covered := List.subset_append_of_subset_left _ hedges
  exact := by
    constructor
    · intro hempty q hq run hrun
      have hmem : q ∈ part.visited := by
        rcases hq with ⟨-, hmem⟩ | hcount
        · exact hmem
        · exact List.count_pos_iff.1 (Nat.lt_of_succ_lt hcount)
      obtain ⟨below, hbelow, -, hsubset, -⟩ := hpart.exists_part hsucceeded hmem
      rw [hrun.unique hbelow]
      exact List.eq_nil_of_subset_nil (hempty ▸ hsubset)
    · intro hidle
      have hmem := hpart.mem_visited
      exact (hidle p (Or.inl ⟨hvisited p hmem, hmem⟩) part hpart).symm

end Covers

/-! ## A plan side by side with the plain contract -/

variable {met met' met'' : PairSet} {done done' done'' : Plan} {first next inner : Unfolding} {rest : List Task}

/-- A pair whose contract was taken apart to its end before. -/
def Settled (c : Circuit P) (lenient : Bool) (met : PairSet) (recorded : List (NodeId × NodeId))
    (p : NodeId × NodeId) : Prop :=
  ∃ part, c.Unfolds lenient [.join p.1 p.2] part ∧ part.failure = none ∧ part.edges ⊆ recorded ∧
    ∀ q ∈ part.visited, met.contains q = true

theorem Settled.mono {p : NodeId × NodeId} (h : c.Settled lenient met recorded p)
    (hmet : ∀ q, met.contains q = true → met'.contains q = true) (hrecorded : recorded ⊆ edges) :
    c.Settled lenient met' edges p := by
  obtain ⟨part, hpart, hsucceeded, hedges, hvisited⟩ := h
  exact ⟨part, hpart, hsucceeded, List.Subset.trans hedges hrecorded, fun q hq => hmet q (hvisited q hq)⟩

/-- `met'` and `done'` are what a plan that stood at `met` and `done` comes to with the work that the
plain contract unfolds to `run`. -/
structure Reaches (c : Circuit P) (lenient : Bool) (met : PairSet) (done : Plan) (run : Unfolding) (met' : PairSet)
    (done' : Plan) : Prop where
  edges : ∃ edges, done'.edges.toList = done.edges.toList ++ edges ∧
    Covers c lenient (fun p => met.contains p = true) done.edges.toList run.edges run.visited edges
  failure : done'.failure = run.failure
  met : run.failure = none → ∀ p, met'.contains p = true ↔ met.contains p = true ∨ p ∈ run.visited

namespace Reaches

/-- The work of a pair that is met for the first time. -/
theorem meet (hfresh : ¬ met.contains (s, r) = true) (h : Reaches c lenient (met.insert (s, r))
      { done with visited := done.visited.push (s, r) } inner met' done') :
    Reaches c lenient met done { inner with visited := (s, r) :: inner.visited } met' done' := by
  have hinsert : ∀ p, (met.insert (s, r)).contains p = true ↔ met.contains p = true ∨ p = (s, r) := fun p => by
    rw [PairSet.contains_insert, Bool.or_eq_true, beq_iff_eq, or_comm]
  obtain ⟨edges, hedges, hcovers⟩ := h.edges
  simp only [hinsert] at hcovers
  refine ⟨⟨edges, hedges, hcovers.meet hfresh⟩, h.failure, fun hsucceeded p => ?_⟩
  rw [h.met hsucceeded, hinsert, or_assoc, List.mem_cons]

theorem append (h : Reaches c lenient met done first met' done') (hsucceeded : first.failure = none)
    (h' : Reaches c lenient met' done' next met'' done'') :
    Reaches c lenient met done ⟨first.edges ++ next.edges, first.visited ++ next.visited, next.failure⟩ met''
      done'' := by
  obtain ⟨edges, hedges, hcovers⟩ := h.edges
  obtain ⟨edges', hedges', hcovers'⟩ := h'.edges
  have hmet := h.met hsucceeded
  rw [hedges] at hcovers' hedges'
  simp only [hmet] at hcovers'
  refine ⟨⟨edges ++ edges', ?_, hcovers.append hcovers'⟩, h'.failure, fun hnext p => ?_⟩
  · rw [hedges', List.append_assoc]
  · rw [h'.met hnext, hmet, or_assoc, List.mem_append]

/-- A pair that is settled is passed by. -/
theorem pass {p : NodeId × NodeId} (h : c.Settled lenient met done.edges.toList p) (hdone : done.failure = none)
    (hrun : c.Unfolds lenient [.join p.1 p.2] run) : Reaches c lenient met done run met done := by
  obtain ⟨part, hpart, hsucceeded, hedges, hvisited⟩ := h
  cases hrun.unique hpart
  refine ⟨⟨[], (List.append_nil _).symm, .pass hrun hsucceeded hedges hvisited⟩, hdone.trans hsucceeded.symm,
    fun _ q => ?_⟩
  exact (or_iff_left_of_imp fun hq => hvisited q hq).symm

end Reaches

/-- Goes on with a plan unless it has failed. -/
def resume (c : Circuit P) (lenient : Bool) (met : PairSet) (done : Plan) (rest : List Task) : Plan :=
  if done.failure = none then c.planFrom lenient met done rest else done

/-- From wherever all pairs on the way that are known are settled, a plan does the work that the plain
contract unfolds to `run`. -/
def Works (c : Circuit P) (lenient : Bool) (tasks : List Task) (run : Unfolding) : Prop :=
  ∀ (met : PairSet) (done : Plan), done.failure = none →
    (∀ p ∈ run.visited, met.contains p = true → c.Settled lenient met done.edges.toList p) →
    ∃ met' done', Reaches c lenient met done run met' done' ∧
      ∀ rest, c.planFrom lenient met done (tasks ++ rest) = c.resume lenient met' done' rest

theorem works_nil : c.Works lenient [] {} := by
  intro met done hdone _
  refine ⟨met, done, ⟨⟨[], (List.append_nil _).symm, .nil⟩, hdone, by simp⟩, fun rest => ?_⟩
  exact (if_pos hdone).symm

namespace Works

theorem link {a b : NodeId} (h : c.Works lenient rest next) :
    c.Works lenient (.link a b :: rest) { next with edges := (a, b) :: next.edges } := by
  intro met done hdone hsettled
  have hpush : (done.edges.push (a, b)).toList = done.edges.toList ++ [(a, b)] := Array.toList_push ..
  obtain ⟨met', done', hreaches, hplan⟩ := h met { done with edges := done.edges.push (a, b) } hdone
    fun p hp hmet => (hsettled p hp hmet).mono (fun _ hq => hq) (hpush ▸ List.subset_append_left _ _)
  obtain ⟨edges, hedges, hcovers⟩ := hreaches.edges
  rw [hpush] at hedges hcovers
  refine ⟨met', done', ⟨⟨(a, b) :: edges, ?_, hcovers.link⟩, hreaches.failure, hreaches.met⟩, fun rest' => ?_⟩
  · rw [hedges, List.append_assoc, List.singleton_append]
  · rw [List.cons_append, planFrom]
    exact hplan rest'

/-- Behind a failure no work is done. -/
theorem of_failure (h : c.Works lenient tasks run) (hfailed : run.failure ≠ none) (rest : List Task) :
    c.Works lenient (tasks ++ rest) run := by
  intro met done hdone hsettled
  obtain ⟨met', done', hreaches, hplan⟩ := h met done hdone hsettled
  refine ⟨met', done', hreaches, fun rest' => ?_⟩
  have hfailed' : ¬ done'.failure = none := hreaches.failure ▸ hfailed
  rw [List.append_assoc, hplan, resume, resume, if_neg hfailed', if_neg hfailed']

/-- What the first tasks have settled stays settled for those behind them. -/
theorem append (h : c.Works lenient tasks first) (hfirst : c.Unfolds lenient tasks first)
    (hsucceeded : first.failure = none) (h' : c.Works lenient rest next) : c.Works lenient (tasks ++ rest)
      ⟨first.edges ++ next.edges, first.visited ++ next.visited, next.failure⟩ := by
  intro met done hdone hsettled
  obtain ⟨met', done', hreaches, hplan⟩ := h met done hdone fun p hp => hsettled p (List.mem_append_left _ hp)
  obtain ⟨edges, hedges, hcovers⟩ := hreaches.edges
  have hmet := hreaches.met hsucceeded
  have hdone' : done'.failure = none := hreaches.failure.trans hsucceeded
  have hsettled' : ∀ p ∈ next.visited, met'.contains p = true → c.Settled lenient met' done'.edges.toList p := by
    intro p hp hp'
    rw [hedges]
    rcases (hmet p).1 hp' with hknown | hvisited
    · exact (hsettled p (List.mem_append_right _ hp) hknown).mono (fun q hq => (hmet q).2 (Or.inl hq))
        (List.subset_append_left _ _)
    · obtain ⟨part, hpart, hpartSucceeded, hsubset, hbelow⟩ := hfirst.exists_part hsucceeded hvisited
      exact ⟨part, hpart, hpartSucceeded, List.Subset.trans hsubset hcovers.covered,
        fun q hq => (hmet q).2 (Or.inr (hbelow hq))⟩
  obtain ⟨met'', done'', hreaches', hplan'⟩ := h' met' done' hdone' hsettled'
  refine ⟨met'', done'', hreaches.append hsucceeded hreaches', fun rest' => ?_⟩
  rw [List.append_assoc, hplan, resume, if_pos hdone', hplan']

/-- The contract of one pair is worked off once its tasks are, or passed by. -/
theorem join (h : c.Works lenient (c.plainTasks sender receiver) inner)
    (hinner : c.Unfolds lenient (c.plainTasks sender receiver) inner) (hports : c.PortsExist)
    (hs : c.node? s = some sender) (hr : c.node? r = some receiver)
    (hmet : refusal? lenient s r sender receiver = none) (hself : ¬ TransGen c.Descends (s, r) (s, r)) :
    c.Works lenient [.join s r] { inner with visited := (s, r) :: inner.visited } := by
  intro met done hdone hsettled
  by_cases hknown : met.contains (s, r) = true
  · refine ⟨met, done, .pass (hsettled (s, r) (List.mem_cons_self ..) hknown) hdone (hinner.single hs hr hmet),
      fun rest => ?_⟩
    rw [resume, if_pos hdone]
    exact planFrom_join_of_met hknown
  · have hcontract := contract_eq_plainTasks hports hs hr hmet hself
    have hbelow := hinner.not_mem_visited hs hr hself
    obtain ⟨met', done', hreaches, hplan⟩ := h (met.insert (s, r))
      { done with visited := done.visited.push (s, r) } hdone fun p hp hp' => by
        rw [PairSet.contains_insert, Bool.or_eq_true, beq_iff_eq] at hp'
        have hmet' := hp'.resolve_left fun heq => hbelow (heq ▸ hp)
        exact (hsettled p (List.mem_cons_of_mem _ hp) hmet').mono (fun q hq => by simp [hq]) (List.Subset.refl _)
    refine ⟨met', done', hreaches.meet hknown, fun rest => ?_⟩
    exact (planFrom_join_of_ok hknown hcontract).trans (hplan rest)

end Works

/-- A contract that is refused has not been met before, or else it would have been refused there. -/
theorem works_refuse (hports : c.PortsExist) (hs : c.node? s = some sender) (hr : c.node? r = some receiver)
    {failure : Failure} (hrefused : refusal? lenient s r sender receiver = some failure) :
    c.Works lenient [.join s r] { visited := [(s, r)], failure := some failure } := by
  intro met done hdone hsettled
  have hfresh : ¬ met.contains (s, r) = true := by
    intro hmet
    obtain ⟨part, hpart, hsucceeded, -⟩ := hsettled (s, r) (List.mem_cons_self ..) hmet
    cases hpart.unique (.refuse hs hr hrefused)
    cases hsucceeded
  have hcontract := (contract_eq_error hports hs hr).2 hrefused
  refine ⟨met, { done with visited := done.visited.push (s, r), failure := some failure },
    ⟨⟨[], (List.append_nil _).symm, Covers.nil.meet hfresh⟩, rfl, nofun⟩, fun rest => ?_⟩
  rw [resume, if_neg (by simp)]
  exact planFrom_join_of_error hfresh hcontract

/-- Where no container holds itself, a plan works off whatever the plain contract unfolds. -/
theorem works_of_unfolds (hports : c.PortsExist) (hself : ∀ p, ¬ TransGen c.Descends p p)
    (h : c.Unfolds lenient tasks run) : c.Works lenient tasks run := by
  induction h with
  | done => exact works_nil
  | link _ ih => exact ih.link
  | refuse hs hr hrefused =>
    exact (works_refuse hports hs hr hrefused).of_failure (by simp) _
  | stop hs hr hmet hinner hfailed ih =>
    exact (ih.join hinner hports hs hr hmet (hself _)).of_failure hfailed _
  | join hs hr hmet hinner hsucceeded _ ih ihrest =>
    exact (ih.join hinner hports hs hr hmet (hself _)).append (hinner.single hs hr hmet) hsucceeded ihrest

/-! ## Recorded edges -/

theorem count_targetsIn (a b : NodeId) : ∀ edges : List (NodeId × NodeId),
    (targetsIn edges a).count b = edges.count (a, b)
  | [] => rfl
  | e :: edges => by
    have ih := count_targetsIn a b edges
    unfold targetsIn at ih ⊢
    rw [List.filterMap_cons, List.count_cons, ← ih]
    obtain ⟨x, y⟩ := e
    by_cases hx : x = a
    · simp [hx, List.count_cons]
    · simp [hx]

/-- Fewer edges make another circuit. -/
theorem eq_of_linkAll_eq (hsublist : edges.Sublist wanted) (hsources : ∀ e ∈ wanted, e.1 < c.size)
    (h : c.linkAll edges = c.linkAll wanted) : edges = wanted := by
  have hcount : ∀ e, edges.count e = wanted.count e := by
    rintro ⟨a, b⟩
    by_cases ha : a < c.size
    · obtain ⟨node, hnode⟩ := node?_of_lt ha
      have hforward := congrArg (forwardOf · a) h
      simp only [forwardOf, node?_linkAll, hnode, Option.map_some] at hforward
      have htargets : targetsIn edges a = targetsIn wanted a := by simpa using hforward
      rw [← count_targetsIn, ← count_targetsIn, htargets]
    · have hwanted : (a, b) ∉ wanted := fun hmem => ha (hsources _ hmem)
      rw [List.count_eq_zero.2 hwanted, List.count_eq_zero.2 fun hmem => hwanted (hsublist.subset hmem)]
  exact hsublist.eq_of_length (List.perm_iff_count.2 hcount).length_eq

/-! ## Connections -/

/-- Where no container holds itself, the plain contract comes to an end in one way. A connection joins
the same leaves, in the same order, and fails in the same way, but it may join them less often. It is
just what the plain contract asks for exactly if no pair with edges is met twice. -/
theorem connect_unfolds (hc : c.Built) (hports : c.PortsExist) (hloops : c.Unlooped) (hs : s < c.size)
    (hr : r < c.size) (lenient : Bool) :
    ∃ run edges, c.Unfolds lenient [.join s r] run ∧
      (∀ run', c.Unfolds lenient [.join s r] run' → run' = run) ∧
      c.connect s r lenient = ⟨c.linkAll edges, run.failure⟩ ∧
      edges.Sublist run.edges ∧ (∀ e, e ∈ edges ↔ e ∈ run.edges) ∧
      (c.connect s r lenient = ⟨c.linkAll run.edges, run.failure⟩ ↔
        ∀ p, 1 < run.visited.count p → c.Idle lenient p) := by
  have hown := hc.ownPorts
  obtain ⟨run, hrun⟩ := exists_unfolds hown hports hloops lenient (s, r) hs hr
  have hworks := works_of_unfolds hports (not_descends_self hown hports hloops) hrun
  obtain ⟨met, done, hreaches, hplan⟩ := hworks {} {} rfl (by simp)
  obtain ⟨edges, hedges, hcovers⟩ := hreaches.edges
  -- nothing is pending behind the pair, and nothing was recorded before
  have hplan : c.plan s r lenient = done := (hplan []).trans (by simp [resume, planFrom])
  have hedges : done.edges.toList = edges := hedges
  have hconnect : c.connect s r lenient = ⟨c.linkAll edges, run.failure⟩ := by
    rw [connect, hplan, hedges, hreaches.failure]
  have hmem : ∀ e, e ∈ edges ↔ e ∈ run.edges := fun e =>
    ⟨fun he => hcovers.sublist.subset he, fun he => by simpa using hcovers.covered he⟩
  have hsources : ∀ e ∈ run.edges, e.1 < c.size := by
    intro e he
    have hdone : e ∈ (c.plan s r lenient).edges := by
      rw [hplan, Array.mem_def, hedges]
      exact (hmem e).2 he
    exact lt_size_of_cell? (joinsLeaves_of_planFrom (by simp) (by simp) e hdone).1
  refine ⟨run, edges, hrun, fun run' hrun' => hrun'.unique hrun, hconnect, hcovers.sublist, hmem, ?_⟩
  have hexact := hcovers.exact
  simp only [Recurs, PairSet.contains_empty, Bool.false_eq_true, false_and, false_or] at hexact
  rw [← hexact, hconnect]
  constructor
  · intro heq
    exact eq_of_linkAll_eq hcovers.sublist hsources (Wired.mk.inj heq).1
  · rintro rfl
    rfl

/-- Two gates. One container holds the second gate and is twice on the bus of another one. One more has an
empty slot and shares a bus with the second gate, each twice. -/
def duct : Circuit Unit :=
  let c := (Circuit.mk #[]).addLeaves [.gate .or, .gate .xor]
  let c := (c.addContainer [.single 1] []).1
  let c := (c.addContainer [.bus [2, 2]] []).1
  let c := (c.addContainer [.bus []] []).1
  (c.addContainer [.bus [4, 1, 4, 1]] []).1

theorem built_duct : duct.Built := by
  have hgates := Built.addLeaf (.addLeaf (P := Unit) .empty (.gate .or)) (.gate .xor)
  exact (((hgates.addContainer [.single 1] []).addContainer [.bus [2, 2]] []).addContainer [.bus []] []).addContainer
    [.bus [4, 1, 4, 1]] []

theorem unlooped_duct : duct.Unlooped :=
  unlooped_of_lt (of_decide_eq_true (by cbv))

theorem node?_duct : duct.node? 0 = some { kind := .leaf (.gate .or), inputs := [.single 0], outputs := [.single 0] } ∧
    duct.node? 2 = some { kind := .container, inputs := [.single 1] } ∧
    duct.node? 3 = some { kind := .container, inputs := [.bus [2, 2]] } ∧
    duct.node? 4 = some { kind := .container, inputs := [.bus []] } ∧
    duct.node? 5 = some { kind := .container, inputs := [.bus [4, 1, 4, 1]] } := by
  cbv

/-- A pair without edges may be met twice. -/
theorem connect_unfolds_duct : duct.Built ∧ duct.PortsExist ∧ duct.Unlooped ∧ 0 < duct.size ∧ 5 < duct.size ∧
    ∃ run, duct.Unfolds false [.join 0 5] run ∧ run.edges = [(0, 1), (0, 1)] ∧
      run.visited = [(0, 5), (0, 4), (0, 4)] ∧
      duct.connect 0 5 false = ⟨duct.linkAll run.edges, run.failure⟩ := by
  have hports : duct.PortsExist := of_decide_eq_true (by cbv)
  have hs : 0 < duct.size := of_decide_eq_true (by cbv)
  have hr : 5 < duct.size := of_decide_eq_true (by cbv)
  obtain ⟨hgate, -, -, hempty, hbus⟩ := node?_duct
  have hidle : duct.Unfolds false [.join 0 4] ⟨[], [(0, 4)], none⟩ := .single .done hgate hempty rfl
  have hrun : duct.Unfolds false [.join 0 5] ⟨[(0, 1), (0, 1)], [(0, 5), (0, 4), (0, 4)], none⟩ := by
    have hinner : duct.Unfolds false [.join 0 4, .link 0 1, .join 0 4, .link 0 1]
        ⟨[(0, 1), (0, 1)], [(0, 4), (0, 4)], none⟩ :=
      .join hgate hempty rfl .done rfl (.link (.join hgate hempty rfl .done rfl (.link .done)))
    exact .single hinner hgate hbus rfl
  obtain ⟨run, edges, hrun', -, -, -, -, hexact⟩ := connect_unfolds built_duct hports unlooped_duct hs hr false
  cases hrun'.unique hrun
  refine ⟨built_duct, hports, unlooped_duct, hs, hr, _, hrun, rfl, rfl, hexact.2 fun p hp part hpart => ?_⟩
  have hmem : p ∈ [((0, 5) : NodeId × NodeId), (0, 4), (0, 4)] := List.count_pos_iff.1 (Nat.lt_of_succ_lt hp)
  simp only [List.mem_cons, List.not_mem_nil, or_false, or_self] at hmem
  rcases hmem with rfl | rfl
  · exact absurd hp (by decide)
  · rw [hpart.unique hidle]

/-- A pair with an edge is met twice on a bus. The plain contract records the edge twice, and the connection
records it once. -/
theorem connect_records_once : duct.Built ∧ duct.PortsExist ∧ duct.Unlooped ∧
    duct.Unfolds false [.join 0 3] ⟨[(0, 1), (0, 1)], [(0, 3), (0, 2), (0, 2)], none⟩ ∧
    (duct.connect 0 3 false).failure = none ∧
    (duct.connect 0 3 false).circuit.forwardOf 0 = [1] ∧
    (duct.linkAll [(0, 1), (0, 1)]).forwardOf 0 = [1, 1] := by
  obtain ⟨hgate, hsingle, hbus, -⟩ := node?_duct
  have hinner : duct.Unfolds false [.join 0 2, .join 0 2] ⟨[(0, 1), (0, 1)], [(0, 2), (0, 2)], none⟩ := by
    have hedge : duct.Unfolds false [.link 0 1] ⟨[(0, 1)], [], none⟩ := .link .done
    exact .join hgate hsingle rfl hedge rfl (.join hgate hsingle rfl hedge rfl .done)
  exact ⟨built_duct, of_decide_eq_true (by cbv), unlooped_duct, .single hinner hgate hbus rfl, by cbv, by cbv, by cbv⟩

end Circuit

end Netlist
