/-
Walks over a circuit keep a set of visited nodes, or of visited pairs of nodes. A set of nodes is a
row of marks, one for each node up to the last one that was added; a set of pairs lists the second
nodes by the first one. A walk ends because each visit to a fresh node leaves fewer nodes
unvisited.
-/
namespace Netlist

/-- A set of nodes, as marks by position. -/
structure NodeSet where
  marks : Array Bool := #[]
  deriving DecidableEq, Repr

namespace NodeSet

/-! ## Members -/

/-- Whether a node is in the set. -/
def contains (s : NodeSet) (n : Nat) : Bool := s.marks.getD n false

/-- The positions from which on no node is in the set. -/
def bound (s : NodeSet) : Nat := s.marks.size

/-- The set with a node added. -/
def insert (s : NodeSet) (n : Nat) : NodeSet :=
  ⟨(s.marks ++ Array.replicate (n + 1 - s.marks.size) false).setIfInBounds n true⟩

/-- The set of the nodes of a list. -/
def ofList (ns : List Nat) : NodeSet := ns.foldl insert {}

@[simp] theorem contains_empty (n : Nat) : ({} : NodeSet).contains n = false := by
  simp [contains]

@[simp] theorem contains_insert (s : NodeSet) (n m : Nat) :
    (s.insert n).contains m = (m == n || s.contains m) := by
  simp only [contains, insert, Array.getD_eq_getD_getElem?, Array.getElem?_setIfInBounds,
    Array.size_append, Array.size_replicate]
  by_cases h : n = m
  · subst h
    have lt : n < s.marks.size + (n + 1 - s.marks.size) := by omega
    simp [lt]
  · have ne : (m == n) = false := by simpa using Ne.symm h
    simp only [h, if_false, ne, Bool.false_or, Array.getElem?_append, Array.getElem?_replicate]
    split
    · rfl
    · next ge =>
      rw [Array.getElem?_eq_none (Nat.le_of_not_lt ge)]
      split <;> rfl

theorem lt_bound {s : NodeSet} {n : Nat} (h : s.contains n = true) : n < s.bound := by
  by_cases lt : n < s.marks.size
  · exact lt
  · simp [contains, Array.getD, lt] at h

theorem contains_foldl_insert (ns : List Nat) (s : NodeSet) (n : Nat) :
    (ns.foldl insert s).contains n = (ns.contains n || s.contains n) := by
  induction ns generalizing s with
  | nil => simp
  | cons m rest ih =>
    rw [List.foldl_cons, ih, contains_insert, List.contains_cons]
    cases rest.contains n <;> cases n == m <;> simp

@[simp] theorem contains_ofList (ns : List Nat) (n : Nat) :
    (ofList ns).contains n = ns.contains n := by
  simp [ofList, contains_foldl_insert]

end NodeSet

/-- A set of pairs of nodes, as the lists of second nodes by first node. -/
structure PairSet where
  rows : Array (List Nat) := #[]
  deriving DecidableEq, Repr

namespace PairSet

/-! ## Pairs -/

/-- Whether a pair is in the set. -/
def contains (s : PairSet) (p : Nat × Nat) : Bool := (s.rows.getD p.1 []).contains p.2

/-- The set with a pair added. -/
def insert (s : PairSet) (p : Nat × Nat) : PairSet :=
  ⟨(s.rows ++ Array.replicate (p.1 + 1 - s.rows.size) []).modify p.1 (p.2 :: ·)⟩

@[simp] theorem contains_empty (p : Nat × Nat) : ({} : PairSet).contains p = false := by
  simp [contains]

/-- The row of a node does not change when the rows are extended by empty ones. -/
theorem getD_append_replicate (rows : Array (List Nat)) (k n : Nat) :
    (rows ++ Array.replicate k []).getD n [] = rows.getD n [] := by
  simp only [Array.getD_eq_getD_getElem?, Array.getElem?_append, Array.getElem?_replicate]
  split
  · rfl
  · next ge =>
    rw [Array.getElem?_eq_none (Nat.le_of_not_lt ge)]
    split <;> rfl

@[simp] theorem contains_insert (s : PairSet) (p q : Nat × Nat) :
    (s.insert p).contains q = (q == p || s.contains q) := by
  obtain ⟨a, b⟩ := p
  obtain ⟨m, n⟩ := q
  have row := getD_append_replicate s.rows (a + 1 - s.rows.size) m
  simp only [Array.getD_eq_getD_getElem?] at row
  simp only [contains, insert, Array.getD_eq_getD_getElem?, Array.getElem?_modify]
  by_cases h : a = m
  · subst h
    have lt : a < (s.rows ++ Array.replicate (a + 1 - s.rows.size) []).size := by
      simp
      omega
    rw [if_pos rfl, ← row, Array.getElem?_eq_getElem lt, Bool.eq_iff_iff]
    simp
  · rw [if_neg h, row]
    simp [Ne.symm h]

end PairSet

/-! ## Unvisited members -/

theorem countP_lt_countP {α : Type} {p q : α → Bool} {l : List α}
    (sub : ∀ b, q b = true → p b = true) {a : α} (mem : a ∈ l) (hp : p a = true)
    (hq : q a = false) : l.countP q < l.countP p := by
  induction l with
  | nil => cases mem
  | cons b rest ih =>
    have le : rest.countP q ≤ rest.countP p := List.countP_mono_left fun b _ => sub b
    rw [List.countP_cons, List.countP_cons]
    rcases List.mem_cons.1 mem with rfl | mem
    · simp [hp, hq]
      omega
    · have lt := ih mem
      cases hb : q b with
      | false =>
        simp
        omega
      | true =>
        simp [sub b hb]
        omega

/-- The number of members of `all` outside of `seen`. -/
def unvisited (all : List Nat) (seen : NodeSet) : Nat := all.countP (!seen.contains ·)

theorem unvisited_insert_lt {all : List Nat} {seen : NodeSet} {n : Nat} (mem : n ∈ all)
    (fresh : seen.contains n = false) : unvisited all (seen.insert n) < unvisited all seen := by
  refine countP_lt_countP (fun m h => ?_) mem (by simp [fresh]) (by simp)
  simp_all

end Netlist
