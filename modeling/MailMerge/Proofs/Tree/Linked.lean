/-
  MailMerge.Proofs.Tree.Linked — links that fit together, whatever the nodes are.

  Links are stored twice, as parents and as child lists, and an edit changes both. A tree is
  linked when the two agree, no list repeats a node, a link joins nodes of the store, the
  container has no parent and no way up loops. Nothing is asked of kinds: a text may have
  children, which no reader makes but which edits can. With all its nodes made elements
  (`bare`) a linked tree is well formed, and edits of links do not see the difference; so
  what is known of them in well-formed trees holds in linked ones.

  Proved: cutting a link, moving a node to where it is not below itself and unwrapping keep a
  tree linked (`Linked.detach`, `Linked.move`, `Linked.unwrap`), and the tree tells beforehand
  what links there will be.
-/

import MailMerge.Proofs.Tree.Fence
import MailMerge.Proofs.Tree.Order

namespace MailMerge.Tree

structure Linked (t : Tree) : Prop where
  rooted : root < t.size
  top : t.parent root = none
  linked : ∀ p c, c ∈ t.children p ↔ t.parent c = some p
  distinct : ∀ p, (t.children p).Nodup
  inStore : ∀ p c, t.parent c = some p → p < t.size ∧ c < t.size
  grounded : WellFounded fun p c => t.parent c = some p

theorem WellFormed.isLinked {t : Tree} (h : t.WellFormed) : t.Linked :=
  ⟨h.rooted, h.top, h.linked, h.distinct, fun _ _ hc => ⟨h.parent_lt_size hc, lt_size_of_parent hc⟩, h.grounded⟩

/-! ## Kinds forgotten -/

/-- The same links between elements that all look alike. -/
def bare (t : Tree) : Tree := ⟨t.nodes.map fun n => { n with kind := .element "" [] }⟩

section bare

variable (t : Tree)

@[simp] theorem size_bare : t.bare.size = t.size := by simp [bare, size]

theorem node_bare (x : NodeId) :
    t.bare.node x = if x < t.size then { t.node x with kind := .element "" [] } else t.node x := by
  simp only [bare, node, size, Array.getD_eq_getD_getElem?, Array.getElem?_map]
  by_cases hx : x < t.nodes.size
  · simp [hx]
  · simp [hx]

@[simp] theorem parent_bare (x : NodeId) : t.bare.parent x = t.parent x := by
  rw [parent, node_bare]
  split <;> rfl

@[simp] theorem children_bare (x : NodeId) : t.bare.children x = t.children x := by
  rw [children, node_bare]
  split <;> rfl

theorem isElement_bare {x : NodeId} (hx : x < t.size) : t.bare.isElement x = true := by
  rw [isElement, name?, kind, node_bare, if_pos hx]
  rfl

@[simp] theorem within_bare {a d : NodeId} : t.bare.Within a d ↔ t.Within a d := by
  simp only [Within, parent_bare]

theorem walk_bare (n : Nat) (todo : List NodeId) : t.bare.walk n todo = t.walk n todo := by
  induction n generalizing todo with
  | zero => rfl
  | succ n ih =>
    cases todo with
    | nil => rfl
    | cons a todo => rw [walk, walk, children_bare, ih]

@[simp] theorem subtree_bare (a : NodeId) : t.bare.subtree a = t.subtree a := by
  rw [subtree, subtree, descendants, descendants, walk_bare, size_bare, children_bare]

theorem card_below_bare (a : NodeId) : (t.bare.below a).card = (t.below a).card := by
  congr 1
  ext d
  rw [mem_below, mem_below, size_bare, within_bare]

end bare

theorem Linked.bare {t : Tree} (h : t.Linked) : t.bare.WellFormed where
  rooted := by rw [size_bare]; exact h.rooted
  top := by rw [parent_bare]; exact h.top
  linked p c := by rw [children_bare, parent_bare]; exact h.linked p c
  distinct p := by rw [children_bare]; exact h.distinct p
  inner p c hc := by
    rw [parent_bare] at hc
    exact Or.inr (isElement_bare t (h.inStore p c hc).1)
  grounded := by simp only [parent_bare]; exact h.grounded

theorem linked_iff {t : Tree} : t.Linked ↔ t.bare.WellFormed := by
  refine ⟨Linked.bare, fun h => ⟨?_, ?_, fun p c => ?_, fun p => ?_, fun p c hc => ?_, ?_⟩⟩
  · simpa using h.rooted
  · simpa using h.top
  · simpa using h.linked p c
  · simpa using h.distinct p
  · simpa using And.intro (h.parent_lt_size (p := p) (c := c) (by simpa using hc)) (lt_size_of_parent (t := t.bare) (by simpa using hc))
  · simpa using h.grounded

/-- A tree in which every node stands below an earlier one is linked if its links agree,
    which can be looked up for each node of the store. -/
theorem linked_of_earlier {t : Tree} (hroot : root < t.size)
    (hup : ∀ c < t.size, ∀ p ∈ t.parent c, p < c ∧ c ∈ t.children p)
    (hdown : ∀ p < t.size, (t.children p).Nodup ∧ ∀ c ∈ t.children p, t.parent c = some p) : t.Linked := by
  refine linked_iff.mpr (wellFormed_of_earlier (by simpa using hroot) (fun c hc p hp => ?_) (by simpa using hdown))
  rw [size_bare] at hc
  rw [parent_bare] at hp
  obtain ⟨hlt, hmem⟩ := hup c hc p hp
  rw [children_bare]
  exact ⟨hlt, hmem, Or.inr (isElement_bare t (Nat.lt_trans hlt hc))⟩

/-! ## What follows from links alone -/

namespace Linked

variable {t : Tree} (h : t.Linked)

include h

theorem parent_of_mem {p c : NodeId} (hc : c ∈ t.children p) : t.parent c = some p := (h.linked p c).mp hc

theorem mem_of_parent {p c : NodeId} (hc : t.parent c = some p) : c ∈ t.children p := (h.linked p c).mpr hc

theorem parent_lt_size {p c : NodeId} (hc : t.parent c = some p) : p < t.size := (h.inStore p c hc).1

theorem not_within_of_parent {p c : NodeId} (hc : t.parent c = some p) : ¬ t.Within c p := fun hw =>
  h.bare.not_within_of_parent (p := p) (c := c) (by simpa using hc) (by simpa using hw)

theorem card_below_lt {p c : NodeId} (hc : t.parent c = some p) : (t.below c).card < (t.below p).card := by
  have hlt := h.bare.card_below_lt (p := p) (c := c) (by simpa using hc)
  rwa [card_below_bare, card_below_bare] at hlt

theorem below_induction {P : NodeId → Prop} (step : ∀ a, (∀ c ∈ t.children a, P c) → P a) (a : NodeId) : P a :=
  h.bare.below_induction (fun a ih => step a (by simpa using ih)) a

theorem subtree_eq (a : NodeId) : t.subtree a = a :: (t.children a).flatMap t.subtree := by
  have heq := h.bare.subtree_eq a
  rw [subtree_bare, children_bare] at heq
  rw [heq, List.flatMap_congr fun c _ => subtree_bare t c]

theorem mem_subtree {a d : NodeId} : d ∈ t.subtree a ↔ t.Within a d := by
  rw [← subtree_bare, h.bare.mem_subtree, within_bare]

theorem nodup_subtree (a : NodeId) : (t.subtree a).Nodup := by
  rw [← subtree_bare]
  exact h.bare.nodup_subtree a

theorem within_of_mem_descendants {a d : NodeId} (hd : d ∈ t.descendants a) : t.Within a d :=
  h.mem_subtree.mp (List.mem_cons_of_mem a hd)

theorem children_cut {p x : NodeId} {before after : List NodeId} (hs : t.children p = before ++ x :: after) :
    x ∉ before ∧ x ∉ after := by
  have hnd := h.distinct p
  rw [hs, List.nodup_middle, List.nodup_cons, List.mem_append, not_or] at hnd
  exact hnd.1

end Linked

/-- The way up meets nothing but what is above. -/
theorem within_of_mem_climb {t : Tree} {n : Nat} {next : Option NodeId} {a : NodeId} (ha : a ∈ t.climb n next) :
    ∃ p, next = some p ∧ t.Within a p := by
  induction n generalizing next with
  | zero => cases next <;> cases ha
  | succ n ih =>
    cases next with
    | none => cases ha
    | some p =>
      rw [climb, List.mem_cons] at ha
      rcases ha with rfl | ha
      · exact ⟨_, rfl, within_refl t _⟩
      · obtain ⟨q, hq, hw⟩ := ih ha
        exact ⟨p, rfl, within_parent hw hq⟩

theorem within_of_findAncestor? {t : Tree} {a d : NodeId} {name : String} (ha : t.findAncestor? d name = some a) :
    t.isNamed name a = true ∧ ∃ p, t.parent d = some p ∧ t.Within a p :=
  ⟨List.find?_some ha, within_of_mem_climb (List.mem_of_find?_eq_some ha)⟩

/-! ## Edits of links do not see kinds -/

section edits

variable (t : Tree)

theorem bare_update {f : Node → Node} (hf : ∀ n k, { f n with kind := k } = f { n with kind := k }) (id : NodeId) :
    (t.update id f).bare = t.bare.update id f := by
  simp only [bare, update, Tree.mk.injEq]
  refine Array.ext (by simp) fun i hi _ => ?_
  simp only [Array.getElem_map, Array.getElem_modify]
  split
  · exact hf _ _
  · rfl

theorem bare_setParent (id : NodeId) (p : Option NodeId) : (t.setParent id p).bare = t.bare.setParent id p :=
  bare_update t (fun _ _ => rfl) id

theorem bare_mapChildren (id : NodeId) (f : List NodeId → List NodeId) :
    (t.mapChildren id f).bare = t.bare.mapChildren id f := bare_update t (fun _ _ => rfl) id

theorem bare_detach (x : NodeId) : (t.detach x).bare = t.bare.detach x := by
  unfold detach
  rw [parent_bare]
  split
  · rfl
  · rw [bare_mapChildren, bare_setParent]

theorem bare_attach (place : List NodeId → List NodeId) (p x : NodeId) :
    (t.attach place p x).bare = t.bare.attach place p x := by
  rw [attach, attach, bare_mapChildren, bare_setParent]

theorem bare_move (place : List NodeId → List NodeId) (p x : NodeId) : (t.move place p x).bare = t.bare.move place p x := by
  rw [move, move, bare_attach, bare_detach]

theorem bare_insertBeside (place : NodeId → NodeId → List NodeId → List NodeId) (anchor x : NodeId) :
    (t.insertBeside place anchor x).bare = t.bare.insertBeside place anchor x := by
  unfold insertBeside
  rw [parent_bare]
  split
  · rfl
  · split
    · rfl
    · simp only [← bare_detach, children_bare]
      split
      · rw [bare_mapChildren, bare_setParent]
      · rfl

theorem bare_insertAllAfter (anchor : NodeId) (ids : List NodeId) :
    (t.insertAllAfter anchor ids).bare = t.bare.insertAllAfter anchor ids := by
  induction ids generalizing t anchor with
  | nil => rfl
  | cons x ids ih => rw [insertAllAfter, insertAllAfter, ih, insertAfter, insertAfter, bare_insertBeside]

theorem bare_unwrap (id : NodeId) : (t.unwrap id).bare = t.bare.unwrap id := by
  rw [unwrap, unwrap, bare_detach, bare_insertAllAfter, children_bare]

end edits

/-- A node may be put below `p` without being put below itself. -/
structure Placeable (t : Tree) (p x : NodeId) : Prop where
  lt_size : x < t.size
  below : p < t.size
  apart : ¬ t.Within x p

theorem Placeable.bare {t : Tree} {p x : NodeId} (hp : Placeable t p x) (hx : x ≠ root) : Movable t.bare p x :=
  ⟨hx, by simpa using hp.lt_size, by simpa using hp.below, Or.inr (isElement_bare t hp.below), by simpa using hp.apart⟩

theorem Placeable.parent_move {t : Tree} {p x : NodeId} (hp : Placeable t p x) (place : List NodeId → List NodeId) (y : NodeId) :
    (t.move place p x).parent y = if y = x then some p else t.parent y := by
  rw [Tree.move, parent_attach place (by rw [size_detach]; exact hp.lt_size), parent_detach]
  split <;> rfl

namespace Linked

variable {t : Tree} (h : t.Linked)

include h

theorem detach (x : NodeId) : (t.detach x).Linked := linked_iff.mpr (bare_detach t x ▸ h.bare.detach x)

theorem children_detach (x q : NodeId) : (t.detach x).children q = (t.children q).filter (· != x) := by
  rw [← children_bare, bare_detach, h.bare.children_detach, children_bare]

theorem move {place : List NodeId → List NodeId} {p x : NodeId} (hp : Placeable t p x) (hx : x ≠ root)
    (hadd : Adds x ((t.children p).filter (· != x)) (place ((t.children p).filter (· != x)))) : (t.move place p x).Linked := by
  refine linked_iff.mpr (bare_move t place p x ▸ h.bare.move (hp.bare hx) ?_)
  rw [children_bare]
  exact hadd

theorem children_move {p x : NodeId} (hp : Placeable t p x) (place : List NodeId → List NodeId) (q : NodeId) :
    (t.move place p x).children q =
      if q = p then place ((t.children p).filter (· != x)) else (t.children q).filter (· != x) := by
  rw [Tree.move, children_attach place (by rw [size_detach]; exact hp.below), h.children_detach, h.children_detach]

theorem insertBeside_eq (place : NodeId → NodeId → List NodeId → List NodeId) {anchor x p : NodeId} (hne : anchor ≠ x)
    (hp : t.parent anchor = some p) : insertBeside place t anchor x = t.move (place anchor x) p x := by
  have hmem : anchor ∈ (t.detach x).children p := by
    rw [h.children_detach, List.mem_filter, bne_iff_ne]
    exact ⟨h.mem_of_parent hp, hne⟩
  unfold insertBeside
  rw [if_neg hne, hp]
  simp only [List.contains_iff_mem, hmem, if_true]
  rfl

theorem unwrap (id : NodeId) : (t.unwrap id).Linked :=
  linked_iff.mpr (bare_unwrap t id ▸ ((fenced_zero h.bare).unwrap (Nat.zero_le id)).wellFormed)

theorem parent_unwrap (id x : NodeId) : (t.unwrap id).parent x = if x = id then none
    else if t.parent x = some id then some ((t.parent id).getD id) else t.parent x := by
  rw [← parent_bare, bare_unwrap, h.bare.parent_unwrap, parent_bare, parent_bare]

end Linked

end MailMerge.Tree
