/-
  MailMerge.Proofs.Merge.Linked — documents are linked whatever is done to them.

  A caller edits a document with the operations of `Edit`, one after the other. An insertion
  puts a node below another one, which must not stand below the node itself (`Edit.Fits`), and
  the root must not be put anywhere; apart from that the nodes need only exist. Each edit that
  fits keeps the links, so a sequence of them does, and so does a merge, which makes its
  insertions itself.

  Proved: every sequence of edits that fit keeps a document linked, and every merge does,
  however it ends (`links_kept`). The root may be put below an element that is nowhere below
  it, and then it has a parent (`root_put_below_element`).
-/

import MailMerge.Proofs.Merge.Ages

namespace MailMerge.Tree

/-! ## Edits -/

inductive Edit where
  | create (kind : Kind) (span : Span)
  | appendChild (parent child : NodeId)
  | prependChild (parent child : NodeId)
  | insertAfter (anchor node : NodeId)
  | insertBefore (anchor node : NodeId)
  | detach (id : NodeId)
  | unwrap (id : NodeId)
  | deepCopy (id : NodeId)
  | setText (id : NodeId) (data : String)
  | setAttribute (id : NodeId) (key value : String)
  | readInto (parent : NodeId) (text : String) (source : Nat)
  | fillEmptyCells (id : NodeId)
  deriving DecidableEq, Repr

namespace Edit

def apply (t : Tree) : Edit → Tree
  | create kind span => (t.create kind span).2
  | appendChild parent child => t.appendChild parent child
  | prependChild parent child => t.prependChild parent child
  | insertAfter anchor node => t.insertAfter anchor node
  | insertBefore anchor node => t.insertBefore anchor node
  | detach id => t.detach id
  | unwrap id => t.unwrap id
  | deepCopy id => (t.deepCopy id).2
  | setText id data => t.setText id data
  | setAttribute id key value => t.setAttribute id key value
  | readInto parent text source => (t.readInto parent text source).2
  | fillEmptyCells id => t.fillEmptyCells id

def applyAll (t : Tree) (es : List Edit) : Tree := es.foldl apply t

/-- The nodes that an edit names. -/
def nodes : Edit → List NodeId
  | create _ _ => []
  | appendChild a b | prependChild a b | insertAfter a b | insertBefore a b => [a, b]
  | detach id | unwrap id | deepCopy id | setText id _ | setAttribute id _ _ | readInto id _ _ | fillEmptyCells id => [id]

/-- The node that an insertion puts somewhere, and the node below which it puts it. -/
def puts? (t : Tree) : Edit → Option (NodeId × NodeId)
  | appendChild parent child | prependChild parent child => some (child, parent)
  | insertAfter anchor node | insertBefore anchor node => (t.parent anchor).map fun p => (node, p)
  | _ => none

/-- The nodes exist, and none is put below itself. -/
structure Fits (t : Tree) (e : Edit) : Prop where
  existing : ∀ x ∈ e.nodes, x < t.size
  apart : ∀ x p, e.puts? t = some (x, p) → ¬ t.Within x p

/-- Each edit fits the tree that it is done to, and none puts the root anywhere. -/
def FitAll : Tree → List Edit → Prop
  | _, [] => True
  | t, e :: es => (e.Fits t ∧ ∀ p, e.puts? t ≠ some (root, p)) ∧ FitAll (e.apply t) es

theorem fits_alone {t : Tree} {e : Edit} (hnodes : ∀ x ∈ e.nodes, x < t.size) (hputs : e.puts? t = none) :
    e.Fits t ∧ ∀ p, e.puts? t ≠ some (root, p) := by
  refine ⟨⟨hnodes, fun x p h => ?_⟩, fun p h => ?_⟩
  · rw [hputs] at h; cases h
  · rw [hputs] at h; cases h

/-- Whatever else there is may be put below the root. -/
theorem fits_below_root {t : Tree} {e : Edit} {x : NodeId} (hnodes : ∀ x ∈ e.nodes, x < t.size)
    (hputs : e.puts? t = some (x, root)) (htop : t.parent root = none) (hx : x ≠ root) :
    e.Fits t ∧ ∀ p, e.puts? t ≠ some (root, p) := by
  refine ⟨⟨hnodes, fun y p h hw => ?_⟩, fun p h => ?_⟩
  · rw [hputs] at h
    cases h
    exact hx (within_of_parent_none htop hw)
  · rw [hputs] at h
    cases h
    exact hx rfl

theorem linked_insertBeside {t : Tree} (h : t.Linked) {place : NodeId → NodeId → List NodeId → List NodeId}
    (hplace : ∀ {anchor x l}, anchor ∈ l → Adds x l (place anchor x l)) {anchor x : NodeId} (hx : x < t.size)
    (hapart : ∀ p, t.parent anchor = some p → ¬ t.Within x p) (hroot : ∀ p, t.parent anchor = some p → x ≠ root) :
    (t.insertBeside place anchor x).Linked := by
  by_cases hne : anchor = x
  · rw [hne, insertBeside_self]
    exact h
  · cases hp : t.parent anchor with
    | none => rw [insertBeside_of_parent_none place hp]; exact h
    | some p =>
      rw [h.insertBeside_eq place hne hp]
      exact h.move ⟨hx, h.parent_lt_size hp, hapart p hp⟩ (hroot p hp)
        (hplace (List.mem_filter.mpr ⟨h.mem_of_parent hp, bne_iff_ne.mpr hne⟩))

/-- One edit keeps the links. -/
theorem linked_apply {t : Tree} (h : t.Linked) {e : Edit} (he : e.Fits t) (hroot : ∀ p, e.puts? t ≠ some (root, p)) :
    (e.apply t).Linked := by
  have hplaceable : ∀ {p x : NodeId}, e.nodes = [p, x] → e.puts? t = some (x, p) → Placeable t p x ∧ x ≠ root := by
    intro p x hnodes hputs
    refine ⟨⟨he.existing x ?_, he.existing p ?_, he.apart x p hputs⟩, ?_⟩
    · rw [hnodes]; simp
    · rw [hnodes]; simp
    · rintro rfl
      exact hroot p hputs
  have hbeside : ∀ {anchor x : NodeId}, (e.puts? t = (t.parent anchor).map fun p => (x, p)) → ∀ p, t.parent anchor = some p →
      ¬ t.Within x p ∧ x ≠ root := by
    intro anchor x hputs p hp
    rw [hp] at hputs
    refine ⟨he.apart x p hputs, ?_⟩
    rintro rfl
    exact hroot p hputs
  cases e with
  | create kind span => exact (h.aged.create kind span).aged.linked
  | appendChild parent child =>
    obtain ⟨hplace, hne⟩ := hplaceable rfl rfl
    exact h.move hplace hne (adds_append _ _)
  | prependChild parent child =>
    obtain ⟨hplace, hne⟩ := hplaceable rfl rfl
    exact h.move hplace hne (adds_cons _ _)
  | insertAfter anchor node =>
    exact linked_insertBeside h adds_insertAfter (he.existing node (by simp [nodes])) (fun p hp => (hbeside rfl p hp).1)
      fun p hp => (hbeside rfl p hp).2
  | insertBefore anchor node =>
    exact linked_insertBeside h adds_insertBefore (he.existing node (by simp [nodes])) (fun p hp => (hbeside rfl p hp).1)
      fun p hp => (hbeside rfl p hp).2
  | detach id => exact h.detach id
  | unwrap id => exact h.unwrap id
  | deepCopy id => exact (h.aged.deepCopy id).aged.linked
  | setText id data => exact (h.aged.setText id data).aged.linked
  | setAttribute id key value => exact (h.aged.setAttribute id key value).aged.linked
  | readInto parent text source =>
    exact (h.aged.readInto (m := 0) ⟨Nat.zero_le _, he.existing parent (by simp [nodes])⟩ text source).aged.linked
  | fillEmptyCells id => exact (h.aged.fillEmptyCells id).aged.linked

theorem linked_applyAll {t : Tree} (h : t.Linked) {es : List Edit} (hes : FitAll t es) : (applyAll t es).Linked := by
  induction es generalizing t with
  | nil => exact h
  | cons e es ih =>
    obtain ⟨⟨hfit, hroot⟩, hrest⟩ := hes
    exact ih (linked_apply h hfit hroot) hrest

end Edit

open Edit

theorem linked_empty : Tree.empty.Linked := linked_of_earlier (by decide) (by decide) (by decide)

/-- Documents are linked when they are made, after every sequence of edits that fit, and after
    every merge. -/
theorem links_kept : Tree.empty.Linked ∧ ∀ t : Tree, t.Linked → (∀ es, FitAll t es → (applyAll t es).Linked) ∧
    ∀ r env, (t.merge r env).tree.Linked := by
  refine ⟨linked_empty, fun t h => ⟨fun es hes => linked_applyAll h hes, fun r env => ?_⟩⟩
  exact (Merge.ages_part r t.size ⟨t, env, Ledger.empty⟩ h.aged (Nat.zero_le _)).aged.linked

namespace Opened

/-- Two elements under the root, one moved in front of the other, and markup that breaks off. -/
def edits : List Edit := [.create (.element "a" []) .none, .appendChild root 1, .create (.element "b" []) .none,
  .insertBefore 1 2, .unwrap 2, .readInto 1 "<w:tc/></c>" 0]

theorem fit : FitAll Tree.empty edits :=
  ⟨fits_alone (by decide) rfl, fits_below_root (by decide) rfl (by decide) (by decide), fits_alone (by decide) rfl,
    fits_below_root (by decide) rfl (by decide) (by decide), fits_alone (by decide) rfl, fits_alone (by decide) rfl, trivial⟩

end Opened

/-- The first element is put below a root that has no parent, the second beside the first. -/
theorem links_kept_opened : (applyAll Tree.empty Opened.edits).Linked ∧
    ((applyAll Tree.empty Opened.edits).merge Registry.stock ⟨[], [], .lenient, .empty⟩).tree.Linked :=
  ⟨(links_kept.2 Tree.empty links_kept.1).1 _ Opened.fit,
    (links_kept.2 _ ((links_kept.2 Tree.empty links_kept.1).1 _ Opened.fit)).2 _ _⟩

/-- The root is put below an element that does not stand below it, and has a parent. -/
theorem root_put_below_element : (Tree.empty.createElement "a").2.Linked ∧
    Fits (Tree.empty.createElement "a").2 (.appendChild 1 root) ∧
    ¬ (apply (Tree.empty.createElement "a").2 (.appendChild 1 root)).Linked := by
  have hlinked : (Tree.empty.createElement "a").2.Linked := linked_of_earlier (by decide) (by decide) (by decide)
  refine ⟨hlinked, ⟨by decide, fun x p hp hw => ?_⟩, fun h => ?_⟩
  · cases hp
    exact absurd (within_of_parent_none (by decide) hw) (by decide)
  · exact absurd h.top (by decide)

end MailMerge.Tree
