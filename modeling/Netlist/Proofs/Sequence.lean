/-
Tests of lists, and programs that can fail and that go through a list: when they succeed, and with
which result. A relation on the entries of a list that has no loops can be gone through from the bottom
up.
-/
import Mathlib.Data.Fintype.Card
import Mathlib.Data.List.Forall2
import Mathlib.Data.List.Perm.Basic
import Mathlib.Data.Set.Finite.List
import Mathlib.Logic.Relation

namespace Netlist

variable {α β ε : Type}

/-- A test of the entries of a list only looks at them. -/
theorem any_congr_mem {l : List α} {f g : α → Bool} (h : ∀ a ∈ l, f a = g a) : l.any f = l.any g := by
  rw [← Function.id_comp f, ← Function.id_comp g, ← List.any_map, ← List.any_map,
    List.map_congr_left h]

/-- A pass in which every entry succeeds gives all results. -/
theorem mapM_eq_pure {m : Type → Type} [Monad m] [LawfulMonad m] {f : α → m β} {g : α → β} :
    ∀ {l : List α}, (∀ a ∈ l, f a = pure (g a)) → l.mapM f = pure (l.map g)
  | [], _ => List.mapM_nil
  | a :: l, h => by
    rw [List.mapM_cons, h a (List.mem_cons_self ..),
      mapM_eq_pure fun b hb => h b (List.mem_cons_of_mem _ hb)]
    simp

/-- A pass that undoes another one entry by entry gives back the list. -/
theorem mapM_map_eq_some {f : β → Option α} {g : α → β} {l : List α} (h : ∀ a ∈ l, f (g a) = some a) :
    (l.map g).mapM f = some l := by
  induction l with
  | nil => rfl
  | cons a l ih =>
    rw [List.map_cons, List.mapM_cons, h a (List.mem_cons_self ..),
      ih fun b hb => h b (List.mem_cons_of_mem _ hb)]
    rfl

theorem mapM_cons_eq_some {f : α → Option β} {a : α} {l : List α} {bs : List β} :
    (a :: l).mapM f = some bs ↔ ∃ b back, f a = some b ∧ l.mapM f = some back ∧ bs = b :: back := by
  simp only [List.mapM_cons, Option.bind_eq_bind, Option.bind_eq_some_iff, Option.pure_def, Option.some.injEq]
  constructor
  · rintro ⟨b, hb, back, hback, rfl⟩
    exact ⟨b, back, hb, hback, rfl⟩
  · rintro ⟨b, back, hb, hback, rfl⟩
    exact ⟨b, hb, back, hback, rfl⟩

theorem mapM_append_eq_some {f : α → Option β} {l l' : List α} {bs : List β} :
    (l ++ l').mapM f = some bs ↔ ∃ front back, l.mapM f = some front ∧ l'.mapM f = some back ∧
      bs = front ++ back := by
  simp only [List.mapM_append, Option.bind_eq_bind, Option.bind_eq_some_iff, Option.pure_def, Option.some.injEq]
  constructor
  · rintro ⟨front, hfront, back, hback, rfl⟩
    exact ⟨front, back, hfront, hback, rfl⟩
  · rintro ⟨front, back, hfront, hback, rfl⟩
    exact ⟨front, hfront, back, hback, rfl⟩

/-- A pass gives one result for each entry, in order. -/
theorem mapM_eq_some {f : α → Option β} : ∀ {l : List α} {bs : List β},
    l.mapM f = some bs ↔ List.Forall₂ (fun a b => f a = some b) l bs
  | [], bs => by
    rw [List.mapM_nil, List.forall₂_nil_left_iff, Option.pure_def, Option.some.injEq, eq_comm]
  | a :: l, bs => by
    rw [mapM_cons_eq_some, List.forall₂_cons_left_iff]
    refine exists_congr fun b => exists_congr fun back => and_congr_right fun _ => and_congr_left fun _ => ?_
    exact mapM_eq_some

/-- A pass over the same entries in another order gives the same results in another order. -/
theorem exists_mapM_of_perm {f : α → Option β} {l l' : List α} (h : l.Perm l') {bs : List β}
    (hbs : l.mapM f = some bs) : ∃ bs', l'.mapM f = some bs' ∧ bs.Perm bs' := by
  obtain ⟨bs', hbs', hperm⟩ := List.perm_comp_forall₂ h.symm (mapM_eq_some.1 hbs)
  exact ⟨bs', mapM_eq_some.2 hbs', hperm.symm⟩

/-- A program in two steps succeeds if both steps do. -/
theorem bind_eq_ok {x : Except ε α} {f : α → Except ε β} {b : β} :
    (x >>= f) = .ok b ↔ ∃ a, x = .ok a ∧ f a = .ok b := by
  cases x with
  | error e => exact ⟨nofun, nofun⟩
  | ok a => exact ⟨fun h => ⟨a, rfl, h⟩, fun ⟨_, ha, h⟩ => by cases ha; exact h⟩

/-- A program in two steps fails as the first step that fails does. -/
theorem bind_eq_error {x : Except ε α} {f : α → Except ε β} {e : ε} :
    (x >>= f) = .error e ↔ x = .error e ∨ ∃ a, x = .ok a ∧ f a = .error e := by
  cases x with
  | error e' => simp [bind, Except.bind]
  | ok a => simp [bind, Except.bind]

/-- A pass succeeds if every entry does, with the results in order. -/
theorem mapM_eq_ok {f : α → Except ε β} : ∀ {l : List α} {bs : List β},
    l.mapM f = .ok bs ↔ List.Forall₂ (fun a b => f a = .ok b) l bs
  | [], bs => by
    rw [List.mapM_nil, List.forall₂_nil_left_iff]
    exact ⟨fun h => by cases h; rfl, fun h => by rw [h]; rfl⟩
  | a :: l, bs => by
    simp only [List.mapM_cons, bind_eq_ok, mapM_eq_ok, List.forall₂_cons_left_iff]
    constructor
    · rintro ⟨b, hb, rest, hrest, heq⟩
      cases heq
      exact ⟨b, rest, hb, hrest, rfl⟩
    · rintro ⟨b, rest, hb, hrest, rfl⟩
      exact ⟨b, hb, rest, hrest, rfl⟩

/-- If every entry gives a result that stands in a relation to it, then so does the pass, entry by entry. -/
theorem exists_mapM_eq_ok {R : α → β → Prop} {f : α → Except ε β} {l : List α}
    (h : ∀ a ∈ l, ∃ b, f a = .ok b ∧ R a b) : ∃ bs, l.mapM f = .ok bs ∧ List.Forall₂ R l bs := by
  induction l with
  | nil => exact ⟨[], rfl, .nil⟩
  | cons a l ih =>
    obtain ⟨b, hb, hrelated⟩ := h a (List.mem_cons_self ..)
    obtain ⟨bs, hbs, hall⟩ := ih fun a' ha' => h a' (List.mem_cons_of_mem _ ha')
    exact ⟨b :: bs, mapM_eq_ok.2 (.cons hb (mapM_eq_ok.1 hbs)), .cons hrelated hall⟩

/-- Every result of a pass comes from an entry. -/
theorem exists_of_mem_mapM {f : α → Except ε β} : ∀ {l : List α} {bs : List β},
    l.mapM f = .ok bs → ∀ b ∈ bs, ∃ a ∈ l, f a = .ok b
  | [], _, h, b, hb => by
    rw [List.forall₂_nil_left_iff.1 (mapM_eq_ok.1 h)] at hb
    cases hb
  | a :: l, bs, h, b, hb => by
    obtain ⟨b', rest, hb', hrest, rfl⟩ := List.forall₂_cons_left_iff.1 (mapM_eq_ok.1 h)
    rcases List.mem_cons.1 hb with rfl | hb
    · exact ⟨a, List.mem_cons_self .., hb'⟩
    · obtain ⟨x, hx, heq⟩ := exists_of_mem_mapM (mapM_eq_ok.2 hrest) b hb
      exact ⟨x, List.mem_cons_of_mem _ hx, heq⟩

/-- An entry of a related list has its counterpart at the same position. -/
theorem getElem?_of_forall₂ {R : α → β → Prop} {l : List α} {l' : List β} (h : List.Forall₂ R l l') :
    ∀ {i : Nat} {b : β}, l'[i]? = some b → ∃ a, l[i]? = some a ∧ R a b := by
  induction h with
  | nil => exact fun hb => by simp at hb
  | cons hab _ ih =>
    intro i b hb
    cases i with
    | zero =>
      cases hb
      exact ⟨_, rfl, hab⟩
    | succ i => exact ih hb

/-- What every step keeps holds at the end of a loop. -/
theorem foldlM_keeps {p : β → Prop} {f : β → α → Except ε β}
    (hstep : ∀ b a b', p b → f b a = .ok b' → p b') :
    ∀ {l : List α} {b b' : β}, p b → l.foldlM f b = .ok b' → p b'
  | [], _, _, hb, h => by
    cases h
    exact hb
  | a :: l, _, _, hb, h => by
    rw [List.foldlM_cons, bind_eq_ok] at h
    obtain ⟨mid, hmid, h⟩ := h
    exact foldlM_keeps hstep (hstep _ a mid hb hmid) h

/-- A loop fails as one of its steps does. -/
theorem exists_of_foldlM_eq_error {f : β → α → Except ε β} {e : ε} :
    ∀ {l : List α} {b : β}, l.foldlM f b = .error e → ∃ b' a, f b' a = .error e
  | [], _, h => by cases h
  | a :: l, b, h => by
    rw [List.foldlM_cons, bind_eq_error] at h
    rcases h with h | ⟨_, -, h⟩
    · exact ⟨b, a, h⟩
    · exact exists_of_foldlM_eq_error h

/-- A pass with a state gives one result for each entry, and what holds of every result of an entry
holds of them. -/
theorem forall₂_mapM_state {σ : Type} {R : α → β → Prop} {f : α → StateM σ β} :
    ∀ {l : List α}, (∀ a ∈ l, ∀ s, R a (f a s).1) → ∀ s, List.Forall₂ R l (l.mapM f s).1
  | [], _, _ => by
    rw [List.mapM_nil]
    exact .nil
  | a :: l, h, s => by
    rw [List.mapM_cons]
    exact .cons (h a (List.mem_cons_self ..) s)
      (forall₂_mapM_state (fun b hb => h b (List.mem_cons_of_mem _ hb)) _)

/-- A check of a list succeeds exactly if every entry passes. -/
theorem forM_eq_ok {f : α → Except ε Unit} :
    ∀ {l : List α}, l.forM f = .ok () ↔ ∀ a ∈ l, f a = .ok ()
  | [] => ⟨fun _ => nofun, fun _ => rfl⟩
  | a :: l => by
    rw [show (a :: l).forM f = (f a >>= fun _ => l.forM f) from rfl, bind_eq_ok]
    constructor
    · rintro ⟨_, ha, h⟩ b hb
      rcases List.mem_cons.1 hb with rfl | hb
      · exact ha
      · exact forM_eq_ok.1 h b hb
    · intro h
      exact ⟨(), h a (List.mem_cons_self ..), forM_eq_ok.2 fun b hb => h b (List.mem_cons_of_mem _ hb)⟩

/-- A check of a list fails as its first failing entry does. -/
theorem forM_eq_error {f : α → Except ε Unit} {a : α} {e : ε} (h : f a = .error e) (rest : List α) :
    ∀ {passed : List α}, (∀ b ∈ passed, f b = .ok ()) → (passed ++ a :: rest).forM f = .error e
  | [], _ => by
    rw [List.nil_append, show (a :: rest).forM f = (f a >>= fun _ => rest.forM f) from rfl, h]
    rfl
  | b :: passed, hpassed => by
    rw [List.cons_append, show (b :: (passed ++ a :: rest)).forM f =
      (f b >>= fun _ => (passed ++ a :: rest).forM f) from rfl, hpassed b (List.mem_cons_self ..)]
    exact forM_eq_error h rest fun b' hb' => hpassed b' (List.mem_cons_of_mem _ hb')

/-! ## Relations without loops -/

open Relation (TransGen)

/-- A relation that starts at finitely many places and that never leads back is well-founded. -/
theorem wellFounded_of_acyclic {r : α → α → Prop} {all : List α} (hall : ∀ a b, r a b → a ∈ all)
    (h : ∀ a, ¬ TransGen r a a) : WellFounded r := by
  let before (a b : {a // a ∈ all}) : Prop := TransGen r a b
  have htrans : IsTrans _ before := ⟨fun _ _ _ => TransGen.trans⟩
  have hirrefl : Std.Irrefl before := ⟨fun a => h a⟩
  have hfinite : Finite {a // a ∈ all} := all.finite_toSet
  have hwf : WellFounded before := Finite.wellFounded_of_trans_of_irrefl before
  have hlisted : ∀ a : {a // a ∈ all}, Acc r a := by
    intro a
    induction a using hwf.induction with
    | _ a ih => exact Acc.intro _ fun b hb => ih ⟨b, hall b a hb⟩ (.single hb)
  exact ⟨fun a => Acc.intro _ fun b hb => hlisted ⟨b, hall b a hb⟩⟩

end Netlist
