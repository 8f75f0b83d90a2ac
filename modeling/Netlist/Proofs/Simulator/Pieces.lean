/-
Cutting an array into pieces along ranges that follow each other without a gap, running one job on
each piece in any order, and joining the pieces again. If the job of every piece makes of it the
piece of a second array at the same place, the whole is that second array: no cut and no access is
out of range, and the order of the jobs does not matter.
-/
import Mathlib.Data.List.Nodup
import Mathlib.Data.List.Range
import Netlist.Simulator.Pieces

namespace Netlist

/-! ## Ranges without gaps -/

/-- The ranges follow each other without a gap from `start` to `stop`. -/
def Tiles (start : Nat) : List Range → Nat → Prop
  | [], stop => start = stop
  | r :: rest, stop => r.start = start ∧ r.start ≤ r.stop ∧ Tiles r.stop rest stop

namespace Tiles

theorem le {start stop : Nat} {rs : List Range} (h : Tiles start rs stop) : start ≤ stop := by
  induction rs generalizing start with
  | nil => exact Nat.le_of_eq h
  | cons r rest ih =>
    obtain ⟨hs, hle, ht⟩ := h
    have := ih ht
    omega

/-- Every range lies between the two ends. -/
theorem mem {start stop : Nat} {rs : List Range} (h : Tiles start rs stop) {r : Range}
    (hr : r ∈ rs) : start ≤ r.start ∧ r.start ≤ r.stop ∧ r.stop ≤ stop := by
  induction rs generalizing start with
  | nil => cases hr
  | cons a rest ih =>
    obtain ⟨hs, hle, ht⟩ := h
    have hstop := ht.le
    rcases List.mem_cons.1 hr with rfl | hr
    · exact ⟨by omega, hle, hstop⟩
    · obtain ⟨h1, h2, h3⟩ := ih ht hr
      exact ⟨by omega, h2, h3⟩

/-- A monotone map of the positions keeps ranges without gaps. -/
theorem map {start stop : Nat} {rs : List Range} (h : Tiles start rs stop) {f : Nat → Nat}
    (hf : ∀ i j, i ≤ j → j ≤ stop → f i ≤ f j) :
    Tiles (f start) (rs.map fun r => ⟨f r.start, f r.stop⟩) (f stop) := by
  induction rs generalizing start with
  | nil => exact congrArg f h
  | cons r rest ih =>
    obtain ⟨hs, hle, ht⟩ := h
    exact ⟨congrArg f hs, hf _ _ hle ht.le, ih ht⟩

end Tiles

namespace Partition

theorem tiles_rangesFrom (base : Nat) : ∀ (count extra start : Nat), extra ≤ count →
    Tiles start (rangesFrom base extra start count) (start + count * base + extra)
  | 0, extra, start, h => by
    simp only [rangesFrom, Tiles]
    omega
  | count + 1, extra, start, h => by
    have ih := tiles_rangesFrom base count (extra - 1) (start + base + min extra 1) (by omega)
    have hsum : start + base + min extra 1 + count * base + (extra - 1) =
        start + (count + 1) * base + extra := by
      rw [Nat.succ_mul]
      omega
    rw [hsum] at ih
    exact ⟨rfl, by simp only; omega, ih⟩

theorem count_pos (len k : Nat) : 0 < count len k := by
  unfold count
  omega

end Partition

/-- The ranges of a partition cover all positions without a gap. -/
theorem tiles_partition (len k : Nat) : Tiles 0 (partition len k) len := by
  have hpos := Partition.count_pos len k
  have h := Partition.tiles_rangesFrom (len / Partition.count len k) (Partition.count len k)
    (len % Partition.count len k) 0 (Nat.le_of_lt (Nat.mod_lt _ hpos))
  have hlen : 0 + Partition.count len k * (len / Partition.count len k) +
      len % Partition.count len k = len := by
    rw [Nat.zero_add]
    exact Nat.div_add_mod _ _
  rw [hlen] at h
  exact h

namespace Pieces

variable {α : Type}

/-! ## Cutting and joining -/

/-- The piece of an array at a range. -/
def piece (a : Array α) (r : Range) : Array α := a.extract r.start r.stop

theorem size_piece {a : Array α} {r : Range} (h : r.stop ≤ a.size) :
    (piece a r).size = r.length := by
  simp only [piece, Array.size_extract, Range.length]
  omega

theorem cutFrom_tiles (a : Array α) {start stop : Nat} {rs : List Range} (h : Tiles start rs stop)
    (hstop : stop ≤ a.size) : cutFrom a start (rs.map Range.length) = some (rs.map (piece a)) := by
  induction rs generalizing start with
  | nil => rfl
  | cons r rest ih =>
    obtain ⟨hs, hle, ht⟩ := h
    have hend : start + r.length = r.stop := by
      unfold Range.length
      omega
    have hbound := ht.le
    rw [List.map_cons, cutFrom, hend, if_pos (by omega), ih ht]
    simp only [Option.map_some, List.map_cons, piece, hs]

theorem foldl_append_tiles (a : Array α) {start stop : Nat} {rs : List Range}
    (h : Tiles start rs stop) (acc : Array α) :
    (rs.map (piece a)).foldl (· ++ ·) acc = acc ++ a.extract start stop := by
  induction rs generalizing start acc with
  | nil =>
    cases h
    rw [List.map_nil, List.foldl_nil, Array.extract_empty_of_stop_le_start (Nat.le_refl _), Array.append_empty]
  | cons r rest ih =>
    obtain ⟨hs, hle, ht⟩ := h
    have hbound := ht.le
    rw [List.map_cons, List.foldl_cons, ih ht, Array.append_assoc, piece,
      Array.extract_append_extract, hs]
    congr 2 <;> omega

/-- Cutting an array along ranges that cover it leaves nothing over, and joining the pieces gives
the array back. -/
theorem cut_tiles (a : Array α) {rs : List Range} (h : Tiles 0 rs a.size) :
    cut a (rs.map Range.length) = some ((rs.map (piece a)).toArray, #[]) := by
  have hsum : ∀ {start stop : Nat} {rs : List Range}, Tiles start rs stop →
      start + (rs.map Range.length).foldr (· + ·) 0 = stop := by
    intro start stop rs
    induction rs generalizing start with
    | nil => exact fun h => h
    | cons r rest ih =>
      rintro ⟨hs, hle, ht⟩
      have := ih ht
      simp only [List.map_cons, List.foldr_cons, Range.length] at this ⊢
      omega
  have hall := hsum h
  rw [Nat.zero_add] at hall
  rw [cut, cutFrom_tiles a h (Nat.le_refl _), hall]
  simp

theorem join_tiles (a : Array α) {rs : List Range} (h : Tiles 0 rs a.size) :
    join (rs.map (piece a)).toArray #[] = a := by
  rw [join, List.foldl_toArray', foldl_append_tiles a h]
  · simp
  · rfl

/-! ## Jobs -/

/-- Jobs that run in any order give what each of them makes of its own piece. -/
theorem runJobs_eq (job : Nat → α → Option α) {pieces results : Array α} {order : List Nat}
    (horder : order.Perm (List.range pieces.size)) (hsize : results.size = pieces.size)
    (hjob : ∀ j (h : j < pieces.size), job j pieces[j] = results[j]?) :
    runJobs order job pieces = some results := by
  -- along the way a piece is a result if its job is done, and unchanged if it is still to come
  have key : ∀ (rest : List Nat) (current : Array α), rest.Nodup → (∀ j ∈ rest, j < pieces.size) →
      current.size = pieces.size →
      (∀ j, current[j]? = if j ∈ rest then pieces[j]? else results[j]?) →
      runJobs rest job current = some results := by
    intro rest
    induction rest with
    | nil =>
      intro current _ _ hcur hval
      have : current = results := Array.ext_getElem? fun j => by simpa using hval j
      simp [runJobs, this]
    | cons j rest ih =>
      intro current hnodup hlt hcur hval
      obtain ⟨hfresh, hrest⟩ := List.nodup_cons.1 hnodup
      have hj := hlt j (List.mem_cons_self ..)
      have hjc : j < current.size := by omega
      have hjr : j < results.size := by omega
      have hpiece : current[j] = pieces[j] := by
        have := hval j
        rw [if_pos (List.mem_cons_self ..), Array.getElem?_eq_getElem hjc,
          Array.getElem?_eq_getElem hj] at this
        exact Option.some.inj this
      have hstep : runJob job current j = some (current.set j results[j]) := by
        rw [runJob, dif_pos hjc, hpiece, hjob j hj, Array.getElem?_eq_getElem hjr]
        rfl
      rw [runJobs, List.foldlM_cons, hstep]
      refine ih _ hrest (fun k hk => hlt k (List.mem_cons_of_mem _ hk)) (by simpa using hcur) ?_
      intro k
      rw [Array.getElem?_set]
      by_cases hkj : j = k
      · subst hkj
        rw [if_pos rfl, if_neg hfresh, Array.getElem?_eq_getElem hjr]
      · rw [if_neg hkj, hval k]
        simp only [List.mem_cons, Ne.symm hkj, false_or]
  have hmem : ∀ j, j ∈ order ↔ j < pieces.size := fun j => by
    rw [horder.mem_iff, List.mem_range]
  refine key order pieces (horder.nodup_iff.2 List.nodup_range) (fun j hj => (hmem j).1 hj) rfl ?_
  intro j
  by_cases hj : j < pieces.size
  · rw [if_pos ((hmem j).2 hj)]
  · rw [if_neg (fun h => hj ((hmem j).1 h)), Array.getElem?_eq_none (by omega),
      Array.getElem?_eq_none (by omega)]

/-! ## Filling one piece -/

/-- The array whose first `m` entries are new and whose other entries are old. -/
def blend (new old : Array α) (m : Nat) : Array α := new.extract 0 m ++ old.extract m old.size

@[simp] theorem blend_zero (new old : Array α) : blend new old 0 = old := by simp [blend]

theorem blend_size {new old : Array α} (h : new.size = old.size) : blend new old old.size = new := by
  simp [blend, ← h]

theorem getElem?_blend {new old : Array α} {m : Nat} (hsize : new.size = old.size)
    (hm : m ≤ old.size) (i : Nat) : (blend new old m)[i]? = if i < m then new[i]? else old[i]? := by
  have hnew : (new.extract 0 m).size = m := by
    simp only [Array.size_extract]
    omega
  rw [blend, Array.getElem?_append, hnew]
  split
  · next lt => rw [Array.getElem?_extract, if_pos (by omega), Nat.zero_add]
  · next ge =>
    rw [Array.getElem?_extract]
    split
    · congr 1
      omega
    · rw [Array.getElem?_eq_none (by omega)]

/-- Writing the next new entry extends the new part by one. -/
theorem put_blend {new old : Array α} {m : Nat} (hsize : new.size = old.size) {x : α}
    (hx : new[m]? = some x) : put (blend new old m) m x = some (blend new old (m + 1)) := by
  obtain ⟨hnew, -⟩ := Array.getElem?_eq_some_iff.1 hx
  have hm : m < old.size := hsize ▸ hnew
  have hlt : m < (blend new old m).size := by
    simp only [blend, Array.size_append, Array.size_extract]
    omega
  rw [put, dif_pos hlt]
  congr 1
  refine Array.ext_getElem? fun i => ?_
  rw [Array.getElem?_set, getElem?_blend hsize (by omega), getElem?_blend hsize (by omega)]
  by_cases hi : m = i
  · subst hi
    rw [if_pos rfl, if_pos (by omega), hx]
  · rw [if_neg hi]
    simp only [show (i < m + 1) = (i < m) from propext (by omega)]

/-- A loop over positions whose every pass succeeds. -/
theorem foldlM_range_eq {σ : Type} (pass : σ → Nat → Option σ) (states : Nat → σ) : ∀ (n : Nat),
    (∀ k < n, pass (states k) k = some (states (k + 1))) →
      (List.range n).foldlM pass (states 0) = some (states n)
  | 0, _ => rfl
  | n + 1, h => by
    rw [List.range_succ, List.foldlM_append,
      foldlM_range_eq pass states n fun k hk => h k (Nat.lt_succ_of_lt hk)]
    simp [h n (Nat.lt_succ_self n)]

end Pieces

end Netlist
