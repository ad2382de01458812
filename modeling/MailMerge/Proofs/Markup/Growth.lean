/-
  MailMerge.Proofs.Markup.Growth — reading makes a tree grow and leaves it well formed.

  The elements still open are elements of the tree, and the next node goes below the
  innermost one, or below the node that the text is read into. Nothing else is touched.

  Proved: reading into a node is an edit of new nodes, whether or not the text can be read
  (`edited_readInto`); the tree of a whole part is well formed (`wellFormed_of_ofText`).
-/

import MailMerge.Markup.Reader
import MailMerge.Proofs.Tree.Fence

namespace MailMerge

open MailMerge.Tree

namespace Tree

theorem parent_addNode (t : Tree) (p : NodeId) (k : Kind) (s : Span) (x : NodeId) :
    (Markup.addNode t p k s).2.parent x = if x = t.size then some p else t.parent x := by
  have hnone : (t.create k s).2.parent t.size = none := by
    rw [parent_create]
    exact parent_of_size_le (Nat.le_refl _)
  show ((t.create k s).2.appendChild p t.size).parent x = _
  rw [appendChild, detach_of_parent_none hnone, parent_mapChildren, parent_setParent, size_create, parent_create]
  by_cases hx : x = t.size
  · rw [if_pos ⟨hx, hx ▸ Nat.lt_succ_self x⟩, if_pos hx]
  · rw [if_neg fun hc => hx hc.1, if_neg hx]

theorem kind_addNode (t : Tree) (p : NodeId) (k : Kind) (s : Span) (x : NodeId) :
    (Markup.addNode t p k s).2.kind x = if x = t.size then k else t.kind x := kind_createBelow t p k s x

theorem size_addNode (t : Tree) (p : NodeId) (k : Kind) (s : Span) : (Markup.addNode t p k s).2.size = t.size + 1 := by
  show ((t.create k s).2.appendChild p t.size).size = _
  rw [appendChild_eq, size_move, size_create]

end Tree

namespace Markup

theorem isElement_of_readElement {content : List Char} {k : Kind} (h : readElement content = .ok k) :
    ∃ n as, k = .element n as := by
  simp only [readElement] at h
  cases hr : readAttributes (String.ofList (nameOf content)) content with
  | error e => rw [hr] at h; cases h
  | ok as =>
    rw [hr] at h
    cases h
    exact ⟨_, _, rfl⟩

/-- Only the tags around an element's children make no node of their own. -/
theorem tag_of_readLeaf {p : Piece} (h : readLeaf p = .ok none) : (∃ content, p = .opening content) ∨ ∃ content, p = .closing content := by
  have hmap : ∀ {α : Type} {r : Except MarkupFault α} {f : α → Kind}, r.map (fun a => some (f a)) ≠ .ok none := by
    intro α r f hr
    cases r with
    | error e => cases hr
    | ok a => cases hr
  cases p with
  | opening content => exact Or.inl ⟨content, rfl⟩
  | closing content => exact Or.inr ⟨content, rfl⟩
  | data raw =>
    rw [readLeaf] at h
    split at h <;> cases h
  | closed content => exact absurd h hmap
  | instruction body =>
    rw [readLeaf] at h
    split at h
    · exact absurd h hmap
    · cases h
  | _ => cases h

/-- A start tag enters an element, an end tag leaves the innermost open one, and every other
    piece makes one node. -/
theorem growth_cases {t : Tree} {path : List NodeId} {p : Piece} {g : Growth} (h : growth t path p = .ok g) :
    (∃ content n as, p = .opening content ∧ readElement content = .ok (.element n as) ∧ g = .enter (.element n as)) ∨
      (∃ k, readLeaf p = .ok (some k) ∧ g = .leaf k) ∨
      ∃ content id rest, p = .closing content ∧ path = id :: rest ∧ g = .leave id rest := by
  have hleaf : (readLeaf p).map (fun kind => kind.elim Growth.nothing .leaf) = .ok g → (∀ content, p ≠ .opening content) →
      (∀ content, p ≠ .closing content) → ∃ k, readLeaf p = .ok (some k) ∧ g = .leaf k := by
    intro hp hopening hclosing
    cases hr : readLeaf p with
    | error e => rw [hr] at hp; cases hp
    | ok kind? =>
      rw [hr] at hp
      cases kind? with
      | none =>
        rcases tag_of_readLeaf hr with ⟨content, he⟩ | ⟨content, he⟩
        · exact absurd he (hopening content)
        · exact absurd he (hclosing content)
      | some k => cases hp; exact ⟨k, rfl, rfl⟩
  cases p with
  | opening content =>
    rw [growth] at h
    cases hr : readElement content with
    | error e => rw [hr] at h; cases h
    | ok k =>
      rw [hr] at h
      cases h
      obtain ⟨n, as, rfl⟩ := isElement_of_readElement hr
      exact Or.inl ⟨content, n, as, rfl, hr, rfl⟩
  | closing content =>
    rw [growth] at h
    cases path with
    | nil => cases h
    | cons id rest =>
      simp only [leaving] at h
      split at h
      · cases h; exact Or.inr (Or.inr ⟨content, id, rest, rfl, rfl, rfl⟩)
      · cases h
  | _ =>
    simp only [growth] at h
    exact Or.inr (Or.inl (hleaf h (by intro content he; cases he) (by intro content he; cases he)))

variable {S R : NodeId → Prop} {t : Tree}

theorem edited_grow (h : Zone S R t) {parent : NodeId} (hR : R parent) (hp : Hosts t parent) {path : List NodeId}
    (hpath : ∀ x ∈ path, S x ∧ t.isElement x = true) {p : Piece} {g : Growth} (hg : growth t path p = .ok g) (span : Span) :
    Edited S R t (grow parent path span t g).2 ∧
      ∀ x ∈ (grow parent path span t g).1, S x ∧ (grow parent path span t g).2.isElement x = true := by
  have hin : R (innermost parent path) ∧ Hosts t (innermost parent path) := by
    cases path with
    | nil => exact ⟨hR, hp⟩
    | cons id rest =>
      obtain ⟨hS, hel⟩ := hpath id List.mem_cons_self
      exact ⟨h.sub id hS, hosts_of_isElement hel⟩
  rcases growth_cases hg with ⟨-, n, as, -, -, rfl⟩ | ⟨k, -, rfl⟩ | ⟨-, id, rest, -, rfl, rfl⟩
  · have hed := h.createBelow hin.1 hin.2 (.element n as) span
    refine ⟨hed, fun x hx => ?_⟩
    rcases List.mem_cons.mp hx with rfl | hx
    · refine ⟨h.fresh _ (Nat.le_refl _), ?_⟩
      show Tree.isElement ((t.create _ _).2.appendChild _ _) t.size = true
      rw [Tree.isElement, Tree.name?, kind_createBelow, if_pos rfl]
      rfl
    · exact ⟨(hpath x hx).1, hed.element x (hpath x hx).2⟩
  · have hed := h.createBelow hin.1 hin.2 k span
    exact ⟨hed, fun x hx => ⟨(hpath x hx).1, hed.element x (hpath x hx).2⟩⟩
  · have hed := h.setSpan (hpath id List.mem_cons_self).1 ((t.span id).extendTo span.stop)
    exact ⟨hed, fun x hx => ⟨(hpath x (List.mem_cons_of_mem id hx)).1, hed.element x (hpath x (List.mem_cons_of_mem id hx)).2⟩⟩

theorem edited_addPieces (h : Zone S R t) {parent : NodeId} (hR : R parent) (hp : Hosts t parent) {path : List NodeId}
    (hpath : ∀ x ∈ path, S x ∧ t.isElement x = true) (ps : List Placed) : Edited S R t (addPieces parent path t ps).2 := by
  induction ps generalizing t path with
  | nil => exact .refl h
  | cons p ps ih =>
    rw [addPieces]
    cases hg : growth t path p.piece with
    | error e => exact .refl h
    | ok g =>
      obtain ⟨hed, hpath'⟩ := edited_grow h hR hp hpath hg p.span
      exact hed.trans (ih hed.zone (hed.hosts hp) hpath')

end Markup

namespace Tree

open Markup

theorem edited_readInto {S R : NodeId → Prop} {t : Tree} (h : Zone S R t) {parent : NodeId} (hR : R parent)
    (hp : Hosts t parent) (text : String) (source : Nat) : Edited S R t (t.readInto parent text source).2 := by
  have hed := edited_addPieces h hR hp (by simp : ∀ x ∈ ([] : List NodeId), S x ∧ t.isElement x = true) (pieces text.toList).1
  unfold readInto
  generalize pieces text.toList = found at hed ⊢
  obtain ⟨ps, broken⟩ := found
  simp only at hed ⊢
  generalize addPieces parent [] t ps = grown at hed ⊢
  obtain ⟨result, u⟩ := grown
  simp only at hed ⊢
  cases result with
  | error e => exact hed
  | ok path =>
    cases broken with
    | some b => exact hed
    | none => cases path <;> exact hed

theorem wellFormed_empty : empty.WellFormed := wellFormed_of_earlier (by decide) (by decide) (by decide)

theorem wellFormed_of_ofText {text : String} {source : Nat} {t : Tree} (h : ofText text source = .ok t) : t.WellFormed := by
  have hed := edited_readInto (fenced_zero wellFormed_empty) (Nat.zero_le root) ⟨by decide, Or.inl rfl⟩ text source
  unfold ofText at h
  generalize empty.readInto root text source = read at h hed
  obtain ⟨result, u⟩ := read
  cases result with
  | error e => cases h
  | ok _ => cases h; exact hed.wellFormed

end Tree

end MailMerge
