/-
  MailMerge.Proofs.Tree.Order — the walk down a well-formed tree.

  The walk takes at most one step per node of the store. Every node it meets weighs as much
  as there are nodes within it, so a stack needs as many steps as it weighs (`load`), and
  the children of a node weigh less than the node. Hence the steps always suffice, and the
  walk is the recursion it stands for.

  Proved: a subtree is its top and then the subtrees of the children (`subtree_eq`); it
  holds just the nodes within the top (`mem_subtree`), each once (`nodup_subtree`); the
  subtree of a node is one piece of the subtree of any node above it (`exists_subtree_eq`),
  and so are the subtrees of consecutive siblings (`exists_segments`). The ancestors are the
  nodes strictly above (`mem_ancestors`).
-/

import Mathlib.Algebra.BigOperators.Group.Finset.Basic
import MailMerge.Proofs.Tree.WellFormed

namespace MailMerge.Tree

/-! ## How many steps a walk needs -/

/-- How many nodes a walk from a stack meets. -/
noncomputable def load (t : Tree) : List NodeId → Nat
  | [] => 0
  | a :: todo => (t.below a).card + load t todo

@[simp] theorem load_nil (t : Tree) : t.load [] = 0 := rfl

@[simp] theorem load_cons (t : Tree) (a : NodeId) (todo : List NodeId) :
    t.load (a :: todo) = (t.below a).card + t.load todo := rfl

@[simp] theorem load_append (t : Tree) (xs ys : List NodeId) : t.load (xs ++ ys) = t.load xs + t.load ys := by
  induction xs with
  | nil => simp
  | cons x xs ih => simp [ih, Nat.add_assoc]

theorem card_below_pos {t : Tree} {a : NodeId} (ha : a < t.size) : 0 < (t.below a).card :=
  Finset.card_pos.mpr ⟨a, mem_below.mpr ⟨ha, within_refl t a⟩⟩

namespace WellFormed

variable {t : Tree} (h : t.WellFormed)

include h

theorem disjoint_below_of_siblings {p a b : NodeId} (ha : a ∈ t.children p) (hb : b ∈ t.children p) (hne : a ≠ b) :
    Disjoint (t.below a) (t.below b) := by
  refine Finset.disjoint_left.mpr fun d hda hdb => hne ?_
  have hpa := h.parent_of_mem ha
  have hpb := h.parent_of_mem hb
  exact h.eq_of_within_siblings (hpa.trans hpb.symm) (mem_below.mp hda).2 (mem_below.mp hdb).2 (by simp [hpa])

/-- The children of a node weigh less than the node. -/
theorem load_children_lt {a : NodeId} (ha : a < t.size) : t.load (t.children a) < (t.below a).card := by
  have hsum : t.load (t.children a) = ((t.children a).toFinset.biUnion t.below).card := by
    rw [Finset.card_biUnion fun x hx y hy hne =>
      h.disjoint_below_of_siblings (List.mem_toFinset.mp hx) (List.mem_toFinset.mp hy) hne]
    rw [List.sum_toFinset _ (h.distinct a)]
    induction t.children a with
    | nil => rfl
    | cons c cs ih => rw [load_cons, ih, List.map_cons, List.sum_cons]
  rw [hsum]
  refine Finset.card_lt_card (Finset.ssubset_iff_subset_ne.mpr ⟨?_, fun he => ?_⟩)
  · refine Finset.biUnion_subset.mpr fun c hc => ?_
    exact below_subset_of_parent (h.parent_of_mem (List.mem_toFinset.mp hc))
  · have hmem : a ∈ (t.children a).toFinset.biUnion t.below := he ▸ mem_below.mpr ⟨ha, within_refl t a⟩
    obtain ⟨c, hc, hac⟩ := Finset.mem_biUnion.mp hmem
    exact h.not_within_of_parent (h.parent_of_mem (List.mem_toFinset.mp hc)) (mem_below.mp hac).2

theorem load_children_le (a : NodeId) : t.load (t.children a) ≤ t.size := by
  by_cases ha : a < t.size
  · have hlt := h.load_children_lt ha
    have hsub : t.below a ⊆ Finset.range t.size := fun d hd => Finset.mem_range.mpr (mem_below.mp hd).1
    have hle : (t.below a).card ≤ t.size := by simpa using Finset.card_le_card hsub
    omega
  · rw [children_of_size_le (Nat.le_of_not_lt ha)]
    exact Nat.zero_le _

theorem inStore_of_children {a : NodeId} {todo : List NodeId} (hs : ∀ x ∈ todo, x < t.size) :
    ∀ x ∈ t.children a ++ todo, x < t.size := by
  intro x hx
  rcases List.mem_append.mp hx with hx | hx
  · exact h.lt_size_of_mem hx
  · exact hs x hx

/-- More steps than the stack weighs change nothing. -/
theorem walk_enough (n : Nat) (todo : List NodeId) (hs : ∀ a ∈ todo, a < t.size) (hn : t.load todo ≤ n) (m : Nat)
    (hm : t.load todo ≤ m) : t.walk n todo = t.walk m todo := by
  induction n generalizing todo m with
  | zero =>
    cases todo with
    | nil => cases m <;> rfl
    | cons a todo =>
      have := card_below_pos (hs a List.mem_cons_self)
      simp only [load_cons] at hn
      omega
  | succ n ih =>
    cases todo with
    | nil => cases m <;> rfl
    | cons a todo =>
      have ha := hs a List.mem_cons_self
      have hlt := h.load_children_lt ha
      simp only [load_cons] at hn hm
      obtain ⟨k, rfl⟩ : ∃ k, m = k + 1 := ⟨m - 1, by omega⟩
      rw [walk, walk]
      congr 1
      refine ih _ (h.inStore_of_children fun x hx => hs x (List.mem_cons_of_mem a hx)) ?_ k ?_ <;>
        (rw [load_append]; omega)

theorem walk_append (n : Nat) (xs ys : List NodeId) (hs : ∀ a ∈ xs ++ ys, a < t.size) (hn : t.load (xs ++ ys) ≤ n) :
    t.walk n (xs ++ ys) = t.walk n xs ++ t.walk n ys := by
  induction n generalizing xs with
  | zero => rfl
  | succ n ih =>
    cases xs with
    | nil => rfl
    | cons a xs =>
      have ha := hs a List.mem_cons_self
      have hlt := h.load_children_lt ha
      have hys : ∀ y ∈ ys, y < t.size := fun y hy => hs y (List.mem_append_right _ hy)
      simp only [List.cons_append, load_cons, load_append] at hn
      have hrec := ih (t.children a ++ xs)
        (by rw [List.append_assoc]; exact h.inStore_of_children fun x hx => hs x (List.mem_cons_of_mem a hx))
        (by simp only [load_append]; omega)
      have hsame := h.walk_enough n ys hys (by omega) (n + 1) (by omega)
      rw [List.cons_append, walk, walk, ← List.append_assoc, hrec, hsame, List.cons_append]

end WellFormed

theorem exists_within_of_mem_walk {t : Tree} (h : t.WellFormed) {n : Nat} {todo : List NodeId} {x : NodeId}
    (hx : x ∈ t.walk n todo) : ∃ a ∈ todo, t.Within a x := by
  induction n generalizing todo with
  | zero => cases hx
  | succ n ih =>
    cases todo with
    | nil => cases hx
    | cons a todo =>
      rw [walk] at hx
      rcases List.mem_cons.mp hx with rfl | hx
      · exact ⟨x, List.mem_cons_self, within_refl t x⟩
      · obtain ⟨b, hb, hw⟩ := ih hx
        rcases List.mem_append.mp hb with hb | hb
        · exact ⟨a, List.mem_cons_self, within_trans (within_of_parent (h.parent_of_mem hb)) hw⟩
        · exact ⟨b, List.mem_cons_of_mem a hb, hw⟩

/-! ## Subtrees -/

namespace WellFormed

variable {t : Tree} (h : t.WellFormed)

include h

theorem walk_eq_flatMap (todo : List NodeId) (hs : ∀ a ∈ todo, a < t.size) (hn : t.load todo ≤ t.size) :
    t.walk t.size todo = todo.flatMap t.subtree := by
  induction todo with
  | nil => cases t.size <;> rfl
  | cons a todo ih =>
    have ha := hs a List.mem_cons_self
    have hlt := h.load_children_lt ha
    simp only [load_cons] at hn
    have htop : t.walk t.size [a] = t.subtree a := by
      obtain ⟨k, hk⟩ : ∃ k, t.size = k + 1 := ⟨t.size - 1, by have := h.rooted; simp only [root] at this; omega⟩
      rw [subtree, descendants, hk, walk, List.append_nil]
      congr 1
      refine h.walk_enough k _ (fun c hc => h.lt_size_of_mem hc) ?_ _ ?_ <;> omega
    have hsplit := h.walk_append t.size [a] todo hs (by simpa using hn)
    rw [List.singleton_append] at hsplit
    rw [hsplit, htop, ih (fun x hx => hs x (List.mem_cons_of_mem a hx)) (by omega), List.flatMap_cons]

/-- Below a node stand the subtrees of its children, in order. -/
theorem descendants_eq (a : NodeId) : t.descendants a = (t.children a).flatMap t.subtree :=
  h.walk_eq_flatMap _ (fun _ hc => h.lt_size_of_mem hc) (h.load_children_le a)

theorem subtree_eq (a : NodeId) : t.subtree a = a :: (t.children a).flatMap t.subtree := by
  rw [subtree, h.descendants_eq]

theorem mem_subtree {a d : NodeId} : d ∈ t.subtree a ↔ t.Within a d := by
  constructor
  · intro hd
    rw [subtree, descendants] at hd
    rcases List.mem_cons.mp hd with rfl | hd
    · exact within_refl t d
    · obtain ⟨c, hc, hw⟩ := exists_within_of_mem_walk h hd
      exact within_trans (within_of_parent (h.parent_of_mem hc)) hw
  · induction a using h.below_induction with
    | step a ih =>
      intro hw
      rw [h.subtree_eq]
      by_cases hda : d = a
      · exact hda ▸ List.mem_cons_self
      · obtain ⟨c, hc, hcd⟩ := exists_child_of_within hw hda
        exact List.mem_cons_of_mem _ (List.mem_flatMap.mpr ⟨c, h.mem_of_parent hc, ih c (h.mem_of_parent hc) hcd⟩)

theorem mem_descendants {a d : NodeId} : d ∈ t.descendants a ↔ t.Within a d ∧ d ≠ a := by
  rw [h.descendants_eq]
  constructor
  · intro hd
    obtain ⟨c, hc, hd⟩ := List.mem_flatMap.mp hd
    have hp := h.parent_of_mem hc
    have hw := h.mem_subtree.mp hd
    refine ⟨within_trans (within_of_parent hp) hw, ?_⟩
    rintro rfl
    exact h.not_within_of_parent hp hw
  · rintro ⟨hw, hne⟩
    obtain ⟨c, hc, hcd⟩ := exists_child_of_within hw hne
    exact List.mem_flatMap.mpr ⟨c, h.mem_of_parent hc, h.mem_subtree.mpr hcd⟩

theorem disjoint_subtree_of_siblings {p a b : NodeId} (ha : a ∈ t.children p) (hb : b ∈ t.children p) (hne : a ≠ b) :
    (t.subtree a).Disjoint (t.subtree b) := by
  intro d hda hdb
  have hpa := h.parent_of_mem ha
  have hpb := h.parent_of_mem hb
  exact hne (h.eq_of_within_siblings (hpa.trans hpb.symm) (h.mem_subtree.mp hda) (h.mem_subtree.mp hdb) (by simp [hpa]))

theorem nodup_subtree (a : NodeId) : (t.subtree a).Nodup := by
  induction a using h.below_induction with
  | step a ih =>
    rw [h.subtree_eq, ← h.descendants_eq, List.nodup_cons]
    refine ⟨fun hm => (h.mem_descendants.mp hm).2 rfl, ?_⟩
    rw [h.descendants_eq, List.nodup_flatMap]
    refine ⟨ih, ?_⟩
    exact (h.distinct a).imp_of_mem fun hx hy hne => h.disjoint_subtree_of_siblings hx hy hne

theorem nodup_descendants (a : NodeId) : (t.descendants a).Nodup := by
  have := h.nodup_subtree a
  rw [subtree, List.nodup_cons] at this
  exact this.2

/-- The subtree of a node is one piece of the subtree of any node above it. -/
theorem exists_subtree_eq {a x : NodeId} (hw : t.Within a x) : ∃ l r, t.subtree a = l ++ t.subtree x ++ r := by
  induction hw with
  | refl => exact ⟨[], [], by simp⟩
  | @tail p c _ hc ih =>
    obtain ⟨l, r, hl⟩ := ih
    obtain ⟨before, after, hs⟩ := List.append_of_mem (h.mem_of_parent hc)
    refine ⟨l ++ p :: before.flatMap t.subtree, after.flatMap t.subtree ++ r, ?_⟩
    rw [hl, h.subtree_eq p, hs]
    simp

/-- So are the subtrees of consecutive siblings, of what is below any node above them. -/
theorem exists_segments {r p : NodeId} (hw : t.Within r p) {before mid after : List NodeId}
    (hs : t.children p = before ++ mid ++ after) :
    ∃ l l', t.descendants r = l ++ mid.flatMap t.subtree ++ l' := by
  obtain ⟨l, l', hl⟩ := h.exists_subtree_eq hw
  rw [subtree, h.subtree_eq p, hs] at hl
  cases l with
  | nil =>
    refine ⟨before.flatMap t.subtree, after.flatMap t.subtree ++ l', ?_⟩
    simp only [List.nil_append, List.cons_append, List.cons.injEq] at hl
    rw [hl.2]; simp
  | cons x l =>
    refine ⟨l ++ p :: before.flatMap t.subtree, after.flatMap t.subtree ++ l', ?_⟩
    simp only [List.cons_append, List.cons.injEq] at hl
    rw [hl.2]; simp

end WellFormed

/-! ## Ancestors -/

open Classical in
/-- The nodes of the store that a node stands within. -/
noncomputable def above (t : Tree) (d : NodeId) : Finset NodeId := (Finset.range t.size).filter (t.Within · d)

theorem mem_above {t : Tree} {a d : NodeId} : a ∈ t.above d ↔ a < t.size ∧ t.Within a d := by
  simp [above]

theorem card_above_le (t : Tree) (d : NodeId) : (t.above d).card ≤ t.size := by
  have hsub : t.above d ⊆ Finset.range t.size := fun a ha => Finset.mem_range.mpr (mem_above.mp ha).1
  simpa using Finset.card_le_card hsub

namespace WellFormed

variable {t : Tree} (h : t.WellFormed)

include h

theorem card_above_lt {p c : NodeId} (hc : t.parent c = some p) : (t.above p).card < (t.above c).card := by
  refine Finset.card_lt_card (Finset.ssubset_iff_subset_ne.mpr ⟨fun a ha => ?_, fun he => ?_⟩)
  · obtain ⟨hlt, hw⟩ := mem_above.mp ha
    exact mem_above.mpr ⟨hlt, within_parent hw hc⟩
  · have hmem : c ∈ t.above p := he ▸ mem_above.mpr ⟨lt_size_of_parent hc, within_refl t c⟩
    exact h.not_within_of_parent hc (mem_above.mp hmem).2

theorem climb_enough (n m : Nat) (d : NodeId) (hn : (t.above d).card ≤ n) (hm : (t.above d).card ≤ m) (hd : d < t.size) :
    t.climb n (some d) = t.climb m (some d) := by
  have hpos : 0 < (t.above d).card := Finset.card_pos.mpr ⟨d, mem_above.mpr ⟨hd, within_refl t d⟩⟩
  induction n generalizing m d with
  | zero => omega
  | succ n ih =>
    obtain ⟨k, rfl⟩ : ∃ k, m = k + 1 := ⟨m - 1, by omega⟩
    rw [climb, climb]
    cases hp : t.parent d with
    | none => cases n <;> cases k <;> rfl
    | some p =>
      have hlt := h.card_above_lt hp
      have hps := h.parent_lt_size hp
      rw [ih k p (by omega) (by omega) hps (Finset.card_pos.mpr ⟨p, mem_above.mpr ⟨hps, within_refl t p⟩⟩)]

theorem ancestors_of_parent {p c : NodeId} (hc : t.parent c = some p) : t.ancestors c = p :: t.ancestors p := by
  have hlt := h.card_above_lt hc
  have hle := t.card_above_le c
  obtain ⟨k, hk⟩ : ∃ k, t.size = k + 1 := ⟨t.size - 1, by omega⟩
  rw [ancestors, hc, hk, climb, ancestors]
  congr 1
  cases hp : t.parent p with
  | none => cases k <;> cases t.size <;> rfl
  | some q =>
    have hq := h.card_above_lt hp
    exact h.climb_enough _ _ q (by omega) (t.card_above_le q) (h.parent_lt_size hp)

theorem mem_ancestors {a d : NodeId} : a ∈ t.ancestors d ↔ t.Within a d ∧ a ≠ d := by
  induction d using h.grounded.induction with
  | _ d ih =>
    cases hp : t.parent d with
    | none =>
      have hnil : t.ancestors d = [] := by rw [ancestors, hp]; cases t.size <;> rfl
      rw [hnil]
      constructor
      · intro hm; cases hm
      · rintro ⟨hw, hne⟩; exact absurd (within_of_parent_none hp hw) hne
    | some p =>
      rw [h.ancestors_of_parent hp, List.mem_cons, ih p hp]
      constructor
      · rintro (rfl | ⟨hw, _⟩)
        · exact ⟨within_of_parent hp, fun he => h.not_within_of_parent hp (he ▸ within_refl t _)⟩
        · exact ⟨within_parent hw hp, fun he => h.not_within_of_parent hp (he ▸ hw)⟩
      · rintro ⟨hw, hne⟩
        by_cases hap : a = p
        · exact Or.inl hap
        · exact Or.inr ⟨within_parent_of_ne hw (Ne.symm hne) hp, hap⟩

theorem isAttached_iff {id : NodeId} : t.isAttached id = true ↔ t.Within root id := by
  rw [isAttached, Bool.or_eq_true, beq_iff_eq, List.contains_iff_mem, h.mem_ancestors]
  constructor
  · rintro (rfl | ⟨hw, _⟩)
    · exact within_refl t _
    · exact hw
  · intro hw
    by_cases he : id = root
    · exact Or.inl he
    · exact Or.inr ⟨hw, Ne.symm he⟩

theorem findAncestor?_of_parent {p c : NodeId} (hc : t.parent c = some p) (name : String) :
    t.findAncestor? c name = if t.isNamed name p then some p else t.findAncestor? p name := by
  rw [findAncestor?, h.ancestors_of_parent hc, List.find?_cons]
  cases t.isNamed name p <;> rfl

end WellFormed

theorem findAncestor?_of_parent_none {t : Tree} {d : NodeId} (hd : t.parent d = none) (name : String) :
    t.findAncestor? d name = none := by
  rw [findAncestor?, ancestors, hd]
  cases t.size <;> rfl

namespace WellFormed

variable {t : Tree} (h : t.WellFormed)

include h

/-- The ancestor found is the nearest of its name. -/
theorem findAncestor?_eq_some {d a : NodeId} {name : String} (ha : t.findAncestor? d name = some a) :
    t.isNamed name a = true ∧ t.Within a d ∧ a ≠ d ∧ ∀ b, t.isNamed name b = true → t.Within b d → b ≠ d → t.Within b a := by
  induction d using h.grounded.induction with
  | _ d ih =>
    cases hp : t.parent d with
    | none => rw [findAncestor?_of_parent_none hp] at ha; cases ha
    | some p =>
      rw [h.findAncestor?_of_parent hp] at ha
      have hdp : p ≠ d := fun he => h.not_within_of_parent hp (he ▸ within_refl t _)
      split at ha
      · next hn =>
        cases ha
        exact ⟨hn, within_of_parent hp, hdp, fun b _ hb hbd => within_parent_of_ne hb (Ne.symm hbd) hp⟩
      · next hn =>
        obtain ⟨hna, hwa, hne, hnear⟩ := ih p hp ha
        refine ⟨hna, within_parent hwa hp, fun he => h.not_within_of_parent hp (he ▸ hwa), fun b hb hbw hbd => ?_⟩
        refine hnear b hb (within_parent_of_ne hbw (Ne.symm hbd) hp) ?_
        rintro rfl
        exact hn hb

/-- Siblings have the same ancestors. -/
theorem findAncestor?_of_siblings {a b : NodeId} (hs : t.parent a = t.parent b) (name : String) :
    t.findAncestor? a name = t.findAncestor? b name := by
  cases hp : t.parent a with
  | none => rw [findAncestor?_of_parent_none hp, findAncestor?_of_parent_none (hs.symm.trans hp)]
  | some p => rw [h.findAncestor?_of_parent hp, h.findAncestor?_of_parent (hs.symm.trans hp)]

end WellFormed

end MailMerge.Tree
