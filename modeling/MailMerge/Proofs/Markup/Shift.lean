/-
  MailMerge.Proofs.Markup.Shift — a text is read in the same way wherever it is read into.

  The nodes of a text are made in document order, so where the store held `n` nodes before
  the node that is read into, every node is found `n` places behind the one that stands for
  it in the tree of the text alone. The node read into stands for the container.

  Proved: a text is read into a new scratch node with the result that it is read alone with, the
  same error if there is one, and what is read is the tree of the text, `n` places further on
  (`shifted_readInto`, `shifted_of_readInto`).
-/

import MailMerge.Proofs.Markup.Growth
import MailMerge.Proofs.Tree.Spans

namespace MailMerge

open MailMerge.Tree

namespace Markup

theorem span_addNode (t : Tree) (p : NodeId) (k : Kind) (span : Span) (x : NodeId) :
    (addNode t p k span).2.span x = if x = t.size then span else t.span x := by
  by_cases hx : x < (t.create k span).2.size
  · rw [← span_create]
    exact (keepsSpans_appendChild (t.create k span).2 p t.size).span x hx
  · rw [size_create] at hx
    have hlt : t.size < x := Nat.lt_of_succ_le (Nat.le_of_not_lt hx)
    have hsize : (addNode t p k span).2.size ≤ x := by rw [size_addNode]; exact hlt
    rw [if_neg (Nat.ne_of_gt hlt), Tree.span, Tree.span, node_of_size_le hsize, node_of_size_le (Nat.le_of_lt hlt)]

/-- The new node is the last child, if there is a node to be its parent. -/
theorem children_addNode_eq (t : Tree) (p : NodeId) (k : Kind) (span : Span) (x : NodeId) :
    (addNode t p k span).2.children x = if x = p ∧ x < t.size + 1 then t.children p ++ [t.size] else t.children x := by
  have hnone : (t.create k span).2.parent t.size = none := by
    rw [parent_create]
    exact parent_of_size_le (Nat.le_refl _)
  show ((t.create k span).2.appendChild p t.size).children x = _
  rw [appendChild, detach_of_parent_none hnone, children_mapChildren, children_setParent, children_create, size_setParent, size_create]
  split
  · next he => rw [he.1]
  · rfl

end Markup

namespace Tree

/-- Behind its first node `v` is found again in `u`, `n` places further on. -/
structure Shifted (n : Nat) (v u : Tree) : Prop where
  size : u.size = v.size + n
  kind : ∀ x, x ≠ root → x < v.size → u.kind (x + n) = v.kind x
  parent : ∀ x, u.parent (x + n) = (v.parent x).map (· + n)
  children : ∀ x, u.children (x + n) = (v.children x).map (· + n)
  span : ∀ x, x ≠ root → x < v.size → u.span (x + n) = v.span x

namespace Shifted

variable {n : Nat} {v u : Tree}

theorem name? (h : Shifted n v u) {x : NodeId} (hx : x ≠ root) (hlt : x < v.size) : u.name? (x + n) = v.name? x :=
  name?_congr (h.kind x hx hlt)

theorem addNode (h : Shifted n v u) (p : NodeId) (k : Kind) (s : Span) :
    Shifted n (Markup.addNode v p k s).2 (Markup.addNode u (p + n) k s).2 where
  size := by rw [size_addNode, size_addNode, h.size, Nat.add_right_comm]
  kind x hx hlt := by
    rw [size_addNode] at hlt
    rw [kind_addNode, kind_addNode, h.size]
    by_cases he : x = v.size
    · rw [if_pos (congrArg (· + n) he), if_pos he]
    · rw [if_neg fun hc => he (Nat.add_right_cancel hc), if_neg he]
      exact h.kind x hx (Nat.lt_of_le_of_ne (Nat.le_of_lt_succ hlt) he)
  parent x := by
    rw [parent_addNode, parent_addNode, h.size]
    by_cases he : x = v.size
    · rw [if_pos (congrArg (· + n) he), if_pos he]
      rfl
    · rw [if_neg fun hc => he (Nat.add_right_cancel hc), if_neg he]
      exact h.parent x
  children x := by
    have hplace : x + n = p + n ∧ x + n < v.size + n + 1 ↔ x = p ∧ x < v.size + 1 := by
      rw [Nat.add_right_cancel_iff, Nat.add_right_comm, Nat.add_lt_add_iff_right]
    rw [Markup.children_addNode_eq, Markup.children_addNode_eq, h.size]
    simp only [hplace]
    split
    · rw [h.children, List.map_append]
      rfl
    · exact h.children x
  span x hx hlt := by
    rw [size_addNode] at hlt
    rw [Markup.span_addNode, Markup.span_addNode, h.size]
    by_cases he : x = v.size
    · rw [if_pos (congrArg (· + n) he), if_pos he]
    · rw [if_neg fun hc => he (Nat.add_right_cancel hc), if_neg he]
      exact h.span x hx (Nat.lt_of_le_of_ne (Nat.le_of_lt_succ hlt) he)

theorem setSpan (h : Shifted n v u) (x : NodeId) (s : Span) : Shifted n (v.setSpan x s) (u.setSpan (x + n) s) where
  size := by rw [size_setSpan, size_setSpan, h.size]
  kind z hz hlt := by
    rw [size_setSpan] at hlt
    rw [kind_setSpan, kind_setSpan, h.kind z hz hlt]
  parent z := by rw [parent_setSpan, parent_setSpan, h.parent]
  children z := by rw [children_setSpan, children_setSpan, h.children]
  span z hz hlt := by
    rw [size_setSpan] at hlt
    have hplace : z + n = x + n ∧ z + n < v.size + n ↔ z = x ∧ z < v.size := by
      rw [Nat.add_right_cancel_iff, Nat.add_lt_add_iff_right]
    have hold := h.span z hz hlt
    simp only [Tree.span, Tree.setSpan, node_update, h.size, hplace] at hold ⊢
    split
    · rfl
    · exact hold

/-- A node looks as it does in the tree of the text. -/
theorem twig (h : Shifted n v u) (hv : v.WellFormed) (hu : u.WellFormed) {x : NodeId} (hx : x ≠ root) (hlt : x < v.size) :
    u.twig (x + n) = v.twig x := by
  induction x using hv.below_induction with
  | step x ih =>
    rw [hu.twig_eq, hv.twig_eq, h.kind x hx hlt, h.children, List.map_map]
    refine congrArg _ (List.map_congr_left fun c hc => ih c hc ?_ (hv.lt_size_of_mem hc))
    rintro rfl
    have hp := hv.parent_of_mem hc
    rw [hv.top] at hp
    cases hp

end Shifted

end Tree

namespace Markup

variable {n : Nat} {v u : Tree}

theorem innermost_map (path : List NodeId) : innermost n (path.map (· + n)) = innermost root path + n := by
  cases path with
  | nil => exact (Nat.zero_add n).symm
  | cons id path => rfl

/-- The same growth `n` places further on. -/
def Growth.shift (n : Nat) : Growth → Growth
  | .leave id path => .leave (id + n) (path.map (· + n))
  | g => g

/-- The same growth under other numbers. -/
def Growth.renumber (ρ : NodeId → NodeId) : Growth → Growth
  | .leave id path => .leave (ρ id) (path.map ρ)
  | g => g

/-- What grows depends on the names of the elements that are open. -/
theorem growth_map {ρ : NodeId → NodeId} {path : List NodeId} (hnames : ∀ x ∈ path, u.name? (ρ x) = v.name? x) (p : Piece) :
    growth u (path.map ρ) p = (growth v path p).map (Growth.renumber ρ) := by
  have hleaf : ∀ r : Except MarkupFault (Option Kind), (r.map fun kind => kind.elim Growth.nothing .leaf) =
      (r.map fun kind => kind.elim Growth.nothing .leaf).map (Growth.renumber ρ) := by
    intro r
    cases r with
    | error e => rfl
    | ok kind => cases kind <;> rfl
  cases p with
  | opening content =>
    rw [growth, growth]
    cases readElement content <;> rfl
  | closing content =>
    rw [growth, growth]
    cases path with
    | nil => rfl
    | cons id path =>
      rw [List.map_cons, leaving, leaving, hnames id List.mem_cons_self]
      by_cases he : (v.name? id).getD "" = closingName content
      · rw [if_pos he, if_pos he]
        rfl
      · rw [if_neg he, if_neg he]
        rfl
  | data s => exact hleaf (readLeaf (.data s))
  | closed content => exact hleaf (readLeaf (.closed content))
  | cdata body => exact hleaf (readLeaf (.cdata body))
  | comment body => exact hleaf (readLeaf (.comment body))
  | instruction body => exact hleaf (readLeaf (.instruction body))
  | doctype s body => exact hleaf (readLeaf (.doctype s body))

/-- The same piece makes both trees grow in the same way. -/
theorem growth_shifted (h : Shifted n v u) {path : List NodeId} (hpath : ∀ x ∈ path, x ≠ root ∧ x < v.size) (p : Piece) :
    growth u (path.map (· + n)) p = (growth v path p).map (Growth.shift n) := by
  have hshift : Growth.shift n = Growth.renumber (· + n) := funext fun g => by cases g <;> rfl
  rw [hshift]
  exact growth_map (fun x hx => h.name? (hpath x hx).1 (hpath x hx).2) p

/-- Reading the pieces goes on in both trees alike, also in the elements that stay open. -/
theorem shifted_addPieces (h : Shifted n v u) (hroot : root < v.size) (path : List NodeId)
    (hpath : ∀ x ∈ path, x ≠ root ∧ x < v.size) (ps : List Placed) :
    Shifted n (addPieces root path v ps).2 (addPieces n (path.map (· + n)) u ps).2 ∧
      (addPieces n (path.map (· + n)) u ps).1 = (addPieces root path v ps).1.map (·.map (· + n)) ∧
      ∀ left, (addPieces root path v ps).1 = .ok left → ∀ x ∈ left, x ≠ root ∧ x < (addPieces root path v ps).2.size := by
  induction ps generalizing v u path with
  | nil => exact ⟨h, rfl, fun left he => by cases he; exact hpath⟩
  | cons p ps ih =>
    have hnew : v.size ≠ root := Nat.ne_of_gt hroot
    have hsize : u.size = v.size + n := h.size
    have hgrown : ∀ {x}, x ≠ root ∧ x < v.size → x ≠ root ∧ x < v.size + 1 := fun hx => ⟨hx.1, Nat.lt_succ_of_lt hx.2⟩
    rw [addPieces, addPieces, growth_shifted h hpath]
    cases hg : growth v path p.piece with
    | error e => exact ⟨h, rfl, fun left he => by cases he⟩
    | ok g =>
      rcases growth_cases hg with ⟨-, name, as, -, -, rfl⟩ | ⟨k, -, rfl⟩ | ⟨-, id, rest, -, rfl, rfl⟩
      · have hadd := h.addNode (innermost root path) (.element name as) p.span
        rw [← innermost_map] at hadd
        have hnext := ih hadd (by rw [size_addNode]; exact Nat.succ_pos _) (v.size :: path) fun x hx => by
          rw [size_addNode]
          rcases List.mem_cons.mp hx with rfl | hx
          · exact ⟨hnew, Nat.lt_succ_self _⟩
          · exact hgrown (hpath x hx)
        rw [List.map_cons, ← hsize] at hnext
        exact hnext
      · have hadd := h.addNode (innermost root path) k p.span
        rw [← innermost_map] at hadd
        exact ih hadd (by rw [size_addNode]; exact Nat.succ_pos _) path fun x hx => by
          rw [size_addNode]
          exact hgrown (hpath x hx)
      · have hspan := h.span id (hpath id List.mem_cons_self).1 (hpath id List.mem_cons_self).2
        have hgrow : grow n ((id :: rest).map (· + n)) p.span u (Growth.shift n (.leave id rest)) =
            (rest.map (· + n), u.setSpan (id + n) ((v.span id).extendTo p.span.stop)) := by
          rw [← hspan]
          rfl
        simp only [Except.map, hgrow]
        exact ih (h.setSpan id ((v.span id).extendTo p.span.stop)) (by rwa [size_setSpan]) rest fun x hx => by
          rw [size_setSpan]
          exact hpath x (List.mem_cons_of_mem id hx)

end Markup

namespace Tree

/-- A text is read into a new scratch node as it is read alone. -/
theorem shifted_readInto (t : Tree) (k : Kind) (text : String) (source : Nat) :
    ∃ v, Shifted t.size v ((t.create k .none).2.readInto t.size text source).2 ∧
      Tree.empty.readInto root text source = (((t.create k .none).2.readInto t.size text source).1, v) := by
  have hstart : Shifted t.size Tree.empty (t.create k .none).2 := by
    have hnew : ∀ x, x + t.size ≥ t.size := fun x => Nat.le_add_left _ _
    have hempty : ∀ x, Tree.empty.node x = lone .container .none := fun x => by
      by_cases hx : x = root
      · rw [hx]; rfl
      · exact node_of_size_le (Nat.pos_of_ne_zero hx)
    refine ⟨by rw [size_create, Nat.add_comm]; rfl, fun x hx hlt => absurd (Nat.lt_one_iff.mp hlt) hx, fun x => ?_, fun x => ?_,
      fun x hx hlt => absurd (Nat.lt_one_iff.mp hlt) hx⟩
    · rw [parent_create, parent_of_size_le (hnew x), Tree.parent, hempty]
      rfl
    · rw [children_create, children_of_size_le (hnew x), Tree.children, hempty]
      rfl
  obtain ⟨htree, hresult, hopen⟩ := Markup.shifted_addPieces hstart Nat.zero_lt_one []
    (fun x hx => absurd hx List.not_mem_nil) (Markup.pieces text.toList).1
  rw [List.map_nil] at htree hresult
  unfold readInto
  generalize Markup.pieces text.toList = found at htree hresult hopen ⊢
  obtain ⟨ps, broken⟩ := found
  simp only at htree hresult hopen ⊢
  generalize Markup.addPieces t.size [] (t.create k .none).2 ps = big at htree hresult ⊢
  generalize Markup.addPieces root [] Tree.empty ps = small at htree hresult hopen ⊢
  obtain ⟨result, v⟩ := small
  obtain ⟨result', u⟩ := big
  simp only at htree hresult hopen
  subst hresult
  refine ⟨v, ?_, ?_⟩
  · cases result with
    | error e => exact htree
    | ok path => cases broken <;> cases path <;> exact htree
  · cases result with
    | error e => rfl
    | ok path =>
      cases broken with
      | some b => cases path <;> rfl
      | none =>
        cases path with
        | nil => rfl
        | cons id path =>
          -- the error names the element that is open and tells its span
          obtain ⟨hid, hlt⟩ := hopen _ rfl id List.mem_cons_self
          simp only [Except.map, List.map_cons, htree.name? hid hlt, htree.span id hid hlt]

/-- A text that can be read into a new scratch node is the text of a tree, which is what the
    node now holds. -/
theorem shifted_of_readInto {t u : Tree} {k : Kind} {text : String} {source : Nat}
    (h : (t.create k .none).2.readInto t.size text source = (.ok (), u)) :
    ∃ v, Tree.ofText text source = .ok v ∧ Shifted t.size v u := by
  obtain ⟨v, hshift, hread⟩ := shifted_readInto t k text source
  rw [h] at hshift hread
  exact ⟨v, by rw [ofText, hread], hshift⟩

end Tree

end MailMerge
