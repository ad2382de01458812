/-
  MailMerge.Proofs.Tree.WellFormed — trees whose links fit together.

  A tree is well formed when parent and child links agree, no child stands twice in one
  list, only elements and the container have children, the container has no parent, and
  going up never loops. `Within a d` says that `d`
  is `a` or stands below it; it is defined by going up, where the way is unique.

  Proved: of two nodes above a third one stands above the other (`within_total`); no two
  nodes stand above each other (`within_antisymm`); a property that passes from the
  children of a node to the node holds everywhere (`WellFormed.below_induction`).
-/

import Mathlib.Data.Finset.Card
import Mathlib.Logic.Relation
import Mathlib.Order.WellFounded
import MailMerge.Tree.Edit
import MailMerge.Tree.Walk

namespace MailMerge.Tree

/-- `d` is `a` or stands below it. -/
def Within (t : Tree) (a d : NodeId) : Prop := Relation.ReflTransGen (fun p c => t.parent c = some p) a d

structure WellFormed (t : Tree) : Prop where
  rooted : root < t.size
  top : t.parent root = none
  linked : ∀ p c, c ∈ t.children p ↔ t.parent c = some p
  distinct : ∀ p, (t.children p).Nodup
  inner : ∀ p c, t.parent c = some p → p = root ∨ t.isElement p = true
  grounded : WellFounded fun p c => t.parent c = some p

/-! ## Nodes outside the store -/

theorem node_of_size_le {t : Tree} {id : NodeId} (h : t.size ≤ id) : t.node id = lone .container .none := by
  simp only [node, Array.getD, size] at *
  rw [dif_neg (by omega)]

theorem parent_of_size_le {t : Tree} {id : NodeId} (h : t.size ≤ id) : t.parent id = none := by
  rw [parent, node_of_size_le h]; rfl

theorem children_of_size_le {t : Tree} {id : NodeId} (h : t.size ≤ id) : t.children id = [] := by
  rw [children, node_of_size_le h]; rfl

theorem name?_of_size_le {t : Tree} {id : NodeId} (h : t.size ≤ id) : t.name? id = none := by
  rw [name?, kind, node_of_size_le h]; rfl

theorem lt_size_of_parent {t : Tree} {c p : NodeId} (h : t.parent c = some p) : c < t.size := by
  refine Nat.lt_of_not_le fun hc => ?_
  rw [parent_of_size_le hc] at h
  cases h

theorem lt_size_of_mem_children {t : Tree} {c p : NodeId} (h : c ∈ t.children p) : p < t.size := by
  refine Nat.lt_of_not_le fun hc => ?_
  rw [children_of_size_le hc] at h
  cases h

theorem lt_size_of_isElement {t : Tree} {id : NodeId} (h : t.isElement id = true) : id < t.size := by
  refine Nat.lt_of_not_le fun hc => ?_
  rw [isElement, name?_of_size_le hc] at h
  cases h

theorem lt_size_of_isNamed {t : Tree} {id : NodeId} {name : String} (h : t.isNamed name id = true) : id < t.size := by
  refine Nat.lt_of_not_le fun hc => ?_
  rw [isNamed, name?_of_size_le hc] at h
  cases h

theorem isElement_of_isNamed {t : Tree} {id : NodeId} {name : String} (h : t.isNamed name id = true) : t.isElement id = true := by
  rw [isNamed, beq_iff_eq] at h
  rw [isElement, h]
  rfl

theorem kind_of_isElement {t : Tree} {id : NodeId} (h : t.isElement id = true) : ∃ name as, t.kind id = .element name as := by
  rw [isElement, name?] at h
  split at h
  · next name as hk => exact ⟨name, as, hk⟩
  · cases h

/-! ## Standing within -/

theorem within_refl (t : Tree) (a : NodeId) : t.Within a a := .refl

theorem within_trans {t : Tree} {a b c : NodeId} (h : t.Within a b) (h' : t.Within b c) : t.Within a c := h.trans h'

theorem within_of_parent {t : Tree} {p c : NodeId} (h : t.parent c = some p) : t.Within p c := .single h

theorem within_parent {t : Tree} {a p c : NodeId} (h : t.Within a p) (hp : t.parent c = some p) : t.Within a c := h.tail hp

/-- What stands within a node is the node itself, or its parent stands within the node. -/
theorem within_iff {t : Tree} {a d : NodeId} : t.Within a d ↔ d = a ∨ ∃ p, t.parent d = some p ∧ t.Within a p := by
  constructor
  · intro h
    rcases Relation.ReflTransGen.cases_tail h with h | ⟨p, hp, hd⟩
    · exact Or.inl h
    · exact Or.inr ⟨p, hd, hp⟩
  · rintro (rfl | ⟨p, hd, hp⟩)
    · exact .refl
    · exact hp.tail hd

theorem within_of_parent_none {t : Tree} {a d : NodeId} (hd : t.parent d = none) (h : t.Within a d) : a = d := by
  rcases within_iff.mp h with h | ⟨p, hp, _⟩
  · exact h.symm
  · rw [hd] at hp; cases hp

/-- A node strictly within another has its parent within it. -/
theorem within_parent_of_ne {t : Tree} {a d p : NodeId} (h : t.Within a d) (hne : d ≠ a) (hp : t.parent d = some p) :
    t.Within a p := by
  rcases within_iff.mp h with h | ⟨q, hq, h⟩
  · exact absurd h hne
  · rw [hp] at hq; cases hq; exact h

/-- Going down from a node to another one passes through a child. -/
theorem exists_child_of_within {t : Tree} {a d : NodeId} (h : t.Within a d) (hne : d ≠ a) :
    ∃ c, t.parent c = some a ∧ t.Within c d := by
  rcases Relation.ReflTransGen.cases_head h with h | ⟨c, hc, hd⟩
  · exact absurd h.symm hne
  · exact ⟨c, hc, hd⟩

/-- The way up is unique. -/
theorem within_total {t : Tree} {a b d : NodeId} (ha : t.Within a d) (hb : t.Within b d) : t.Within a b ∨ t.Within b a := by
  induction ha with
  | refl => exact Or.inr hb
  | tail hay hyd ih =>
    rcases within_iff.mp hb with rfl | ⟨p, hp, hbp⟩
    · exact Or.inl (hay.tail hyd)
    · rw [hyd] at hp; cases hp; exact ih hbp

theorem lt_size_of_within {t : Tree} {a d : NodeId} (h : t.Within a d) (hne : d ≠ a) : d < t.size := by
  rcases within_iff.mp h with h | ⟨p, hp, _⟩
  · exact absurd h hne
  · exact lt_size_of_parent hp

/-! ## In a well-formed tree -/

namespace WellFormed

variable {t : Tree} (h : t.WellFormed)

include h

theorem parent_of_mem {p c : NodeId} (hc : c ∈ t.children p) : t.parent c = some p := (h.linked p c).mp hc

theorem mem_of_parent {p c : NodeId} (hc : t.parent c = some p) : c ∈ t.children p := (h.linked p c).mpr hc

theorem lt_size_of_mem {p c : NodeId} (hc : c ∈ t.children p) : c < t.size := lt_size_of_parent (h.parent_of_mem hc)

theorem parent_lt_size {p c : NodeId} (hc : t.parent c = some p) : p < t.size := lt_size_of_mem_children (h.mem_of_parent hc)

/-- What stands above something, other than the container, is an element. -/
theorem isElement_of_within {a d : NodeId} (hw : t.Within a d) (hne : d ≠ a) (ha : a ≠ root) : t.isElement a = true := by
  obtain ⟨c, hc, -⟩ := exists_child_of_within hw hne
  exact (h.inner a c hc).resolve_left ha

theorem isElement_of_child_within {a d : NodeId} (ha : t.parent a ≠ none) (hw : t.Within a d) (hd : t.isElement d = true) :
    t.isElement a = true := by
  by_cases hne : d = a
  · exact hne ▸ hd
  · refine h.isElement_of_within hw hne ?_
    rintro rfl
    exact ha h.top

theorem not_within_of_parent {p c : NodeId} (hc : t.parent c = some p) : ¬ t.Within c p := by
  intro hw
  have hloop : Relation.TransGen (fun p c => t.parent c = some p) c c := Relation.TransGen.tail' hw hc
  exact h.grounded.transGen.irrefl.irrefl c hloop

/-- What stands in a node and is no element has no children. -/
theorem children_of_not_isElement {x p : NodeId} (hp : t.parent x = some p) (hx : t.isElement x = false) : t.children x = [] := by
  apply List.eq_nil_iff_forall_not_mem.mpr
  intro c hc
  rcases h.inner x c (h.parent_of_mem hc) with rfl | hel
  · rw [h.top] at hp
    cases hp
  · rw [hx] at hel
    cases hel

theorem eq_of_within_childless {a d : NodeId} (ha : t.children a = []) (hw : t.Within a d) : d = a := by
  by_contra hne
  obtain ⟨c, hc, -⟩ := exists_child_of_within hw hne
  have hm := h.mem_of_parent hc
  rw [ha] at hm
  cases hm

theorem within_antisymm {a b : NodeId} (hab : t.Within a b) (hba : t.Within b a) : a = b := by
  rcases within_iff.mp hab with hb | ⟨p, hp, hap⟩
  · exact hb.symm
  · exact absurd (within_trans hba hap) (h.not_within_of_parent hp)

/-- Two children of one node with something within both are the same. -/
theorem eq_of_within_siblings {a b d : NodeId} (hs : t.parent a = t.parent b) (ha : t.Within a d) (hb : t.Within b d)
    (hp : t.parent a ≠ none) : a = b := by
  obtain ⟨p, hap⟩ := Option.ne_none_iff_exists'.mp hp
  have hbp : t.parent b = some p := hs ▸ hap
  rcases within_total ha hb with hab | hba
  · by_contra hne
    exact h.not_within_of_parent hap (within_parent_of_ne hab (Ne.symm hne) hbp)
  · by_contra hne
    exact h.not_within_of_parent hbp (within_parent_of_ne hba hne hap)

end WellFormed

/-- A tree in which every node stands below an earlier one is well formed if its links
    agree, which can be looked up for each node of the store. -/
theorem wellFormed_of_earlier {t : Tree} (hroot : root < t.size)
    (hup : ∀ c < t.size, ∀ p ∈ t.parent c, p < c ∧ c ∈ t.children p ∧ (p = root ∨ t.isElement p = true))
    (hdown : ∀ p < t.size, (t.children p).Nodup ∧ ∀ c ∈ t.children p, t.parent c = some p) : t.WellFormed where
  rooted := hroot
  top := by
    cases hp : t.parent root with
    | none => rfl
    | some p => exact absurd (hup root hroot p hp).1 (Nat.not_lt_zero p)
  linked p c := by
    constructor
    · intro hc; exact (hdown p (lt_size_of_mem_children hc)).2 c hc
    · intro hp; exact (hup c (lt_size_of_parent hp) p hp).2.1
  distinct p := by
    by_cases hp : p < t.size
    · exact (hdown p hp).1
    · rw [children_of_size_le (Nat.le_of_not_lt hp)]; exact List.nodup_nil
  inner p c hp := (hup c (lt_size_of_parent hp) p hp).2.2
  grounded := Subrelation.wf (fun {p c} hp => (hup c (lt_size_of_parent hp) p hp).1) Nat.lt_wfRel.wf

/-! ## Induction from the leaves up -/

open Classical in
/-- The nodes of the store within `a`. -/
noncomputable def below (t : Tree) (a : NodeId) : Finset NodeId := (Finset.range t.size).filter (t.Within a)

theorem mem_below {t : Tree} {a d : NodeId} : d ∈ t.below a ↔ d < t.size ∧ t.Within a d := by
  simp [below]

theorem below_subset_of_parent {t : Tree} {p c : NodeId} (hc : t.parent c = some p) : t.below c ⊆ t.below p := by
  intro d hd
  obtain ⟨hlt, hw⟩ := mem_below.mp hd
  exact mem_below.mpr ⟨hlt, within_trans (within_of_parent hc) hw⟩

namespace WellFormed

variable {t : Tree} (h : t.WellFormed)

include h

theorem card_below_lt {p c : NodeId} (hc : t.parent c = some p) : (t.below c).card < (t.below p).card := by
  refine Finset.card_lt_card (Finset.ssubset_iff_subset_ne.mpr ⟨below_subset_of_parent hc, fun he => ?_⟩)
  have hp : p ∈ t.below p := mem_below.mpr ⟨h.parent_lt_size hc, .refl⟩
  rw [← he] at hp
  exact h.not_within_of_parent hc (mem_below.mp hp).2

/-- What holds of a node when it holds of all its children holds of every node. -/
theorem below_induction {P : NodeId → Prop} (step : ∀ a, (∀ c ∈ t.children a, P c) → P a) (a : NodeId) : P a := by
  induction hn : (t.below a).card using Nat.strong_induction_on generalizing a with
  | _ n ih =>
    refine step a fun c hc => ih _ ?_ c rfl
    rw [← hn]
    exact h.card_below_lt (h.parent_of_mem hc)

end WellFormed

end MailMerge.Tree
