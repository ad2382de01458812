/-
  MailMerge.Proofs.Tree.Renumbered — one tree in the store of another.

  A store may hold the nodes of a tree under other numbers, among nodes that have nothing to do
  with it (`Renumbered`). Where the numbering goes on in both stores alike, new nodes get numbers
  that belong together. So what is read of the tree is read there, and what is done to the tree
  can be done there, whatever else the store holds.

  The bigger store allows walks and copies more steps. A well-formed tree needs no more than it
  has nodes, so these steps make no difference.

  Proved: what is read of a node and every edit of the tree, one lemma for each, and that a tree
  which has grown holds the tree that it was (`Beyond.renumbered`).
-/

import MailMerge.Proofs.Markup.Written
import MailMerge.Proofs.Splice.Lifts

namespace MailMerge

/-- The node with other numbers in its links. -/
def Node.renumber (ρ : NodeId → NodeId) (n : Node) : Node :=
  { n with parent := n.parent.map ρ, children := n.children.map ρ }

namespace Tree

/-! ## How many steps a copy needs -/

theorem node_adopt_of_ne (t : Tree) {p x y : NodeId} (hp : y ≠ p) (hx : y ≠ x) : (t.adopt p x).node y = t.node y := by
  rw [adopt, mapChildren, setParent, node_update, if_neg fun hc => hp hc.1, node_update, if_neg fun hc => hx hc.1]

/-- A copy leaves the nodes alone that were there before. -/
theorem node_copyTo (n : Nat) {t : Tree} {x : NodeId} (hx : x < t.size) (id : NodeId) : (copyTo n t id).2.node x = t.node x := by
  induction n generalizing t id with
  | zero => rw [copyTo, node_create, if_neg (Nat.ne_of_lt hx)]
  | succ n ih =>
    have hfold : ∀ (cs : List NodeId) (v : Tree), t.size < v.size → v.node x = t.node x →
        (cs.foldl (fun v c => (copyTo n v c).2.adopt t.size (copyTo n v c).1) v).node x = t.node x := by
      intro cs
      induction cs with
      | nil => exact fun _ _ hv => hv
      | cons c cs ihc =>
        intro v hsize hv
        have hxv : x < v.size := Nat.lt_trans hx hsize
        refine ihc ((copyTo n v c).2.adopt t.size (copyTo n v c).1) ?_ ?_
        · rw [adopt_eq, size_attach]
          exact Nat.lt_of_lt_of_le hsize (stays_copyTo n (Nat.zero_le _) c).2.grows
        · rw [fst_copyTo, node_adopt_of_ne _ (Nat.ne_of_lt hx) (Nat.ne_of_lt hxv), ih hxv, hv]
    refine hfold (t.children id) (t.create (t.kind id) (t.span id)).2 ?_ ?_
    · rw [size_create]
      exact Nat.lt_succ_self _
    · rw [node_create, if_neg (Nat.ne_of_lt hx)]

/-- A copy of what stands in a tree that has grown needs no more levels than there are nodes in it. -/
theorem WellFormed.copyTo_enough {t u : Tree} (h : t.WellFormed) (hsize : t.size ≤ u.size) (hu : ∀ x < t.size, u.node x = t.node x)
    {n m : Nat} {id : NodeId} (hid : id < t.size) (hn : (t.below id).card ≤ n) (hm : (t.below id).card ≤ m) :
    copyTo n u id = copyTo m u id := by
  have hpos : ∀ {x}, x < t.size → 0 < (t.below x).card := fun hx => Finset.card_pos.mpr ⟨_, mem_below.mpr ⟨hx, within_refl t _⟩⟩
  induction n generalizing m u id with
  | zero => exact absurd hn (Nat.not_le_of_lt (hpos hid))
  | succ n ih =>
    obtain ⟨k, rfl⟩ : ∃ k, m = k + 1 := ⟨m - 1, by have := hpos hid; omega⟩
    have hchildren : u.children id = t.children id := congrArg Node.children (hu id hid)
    have hfold : ∀ (cs : List NodeId) (v : Tree), (∀ c ∈ cs, c ∈ t.children id) → u.size < v.size → (∀ x < t.size, v.node x = t.node x) →
        cs.foldl (fun v c => (copyTo n v c).2.adopt u.size (copyTo n v c).1) v =
          cs.foldl (fun v c => (copyTo k v c).2.adopt u.size (copyTo k v c).1) v := by
      intro cs
      induction cs with
      | nil => exact fun _ _ _ _ => rfl
      | cons c cs ihc =>
        intro v hcs hv hsame
        have hcp := h.parent_of_mem (hcs c List.mem_cons_self)
        have hlt := h.card_below_lt hcp
        have hone := ih (m := k) (Nat.le_of_lt (Nat.lt_of_le_of_lt hsize hv)) hsame (lt_size_of_parent hcp) (by omega) (by omega)
        rw [List.foldl_cons, List.foldl_cons, ← hone]
        refine ihc ((copyTo n v c).2.adopt u.size (copyTo n v c).1) (fun c' hc' => hcs c' (List.mem_cons_of_mem c hc')) ?_ fun x hx => ?_
        · rw [adopt_eq, size_attach]
          exact Nat.lt_of_lt_of_le hv (stays_copyTo n (Nat.zero_le _) c).2.grows
        · have hxu : x < u.size := Nat.lt_of_lt_of_le hx hsize
          have hxv : x < v.size := Nat.lt_trans hxu hv
          rw [fst_copyTo, node_adopt_of_ne _ (Nat.ne_of_lt hxu) (Nat.ne_of_lt hxv), node_copyTo n hxv, hsame x hx]
    simp only [copyTo, hchildren, create_fst]
    refine congrArg (Prod.mk u.size) (hfold _ _ (fun _ hc => hc) ?_ fun x hx => ?_)
    · rw [size_create]
      exact Nat.lt_succ_self _
    · rw [node_create, if_neg (Nat.ne_of_lt (Nat.lt_of_lt_of_le hx hsize)), hu x hx]

/-! ## Trees in the store of others -/

/-- What is node `x` in `t` is node `ρ x` in `u`, also when nodes are added to both. -/
structure Renumbered (ρ : NodeId → NodeId) (t u : Tree) : Prop where
  injective : Function.Injective ρ
  grows : t.size ≤ u.size
  next : ∀ k, ρ (t.size + k) = u.size + k
  node : ∀ x, u.node (ρ x) = (t.node x).renumber ρ

/-- A list in which one number comes right behind another keeps that under other numbers. -/
theorem map_insertAfter {ρ : NodeId → NodeId} (h : Function.Injective ρ) (anchor x : NodeId) (l : List NodeId) :
    Siblings.insertAfter (ρ anchor) (ρ x) (l.map ρ) = (Siblings.insertAfter anchor x l).map ρ := by
  induction l with
  | nil => rfl
  | cons c cs ih =>
    rw [List.map_cons, Siblings.insertAfter, Siblings.insertAfter]
    by_cases hc : c = anchor
    · rw [if_pos hc, if_pos (congrArg ρ hc)]
      rfl
    · rw [if_neg hc, if_neg fun he => hc (h he), ih]
      rfl

theorem map_insertBefore {ρ : NodeId → NodeId} (h : Function.Injective ρ) (anchor x : NodeId) (l : List NodeId) :
    Siblings.insertBefore (ρ anchor) (ρ x) (l.map ρ) = (Siblings.insertBefore anchor x l).map ρ := by
  induction l with
  | nil => rfl
  | cons c cs ih =>
    rw [List.map_cons, Siblings.insertBefore, Siblings.insertBefore]
    by_cases hc : c = anchor
    · rw [if_pos hc, if_pos (congrArg ρ hc)]
      rfl
    · rw [if_neg hc, if_neg fun he => hc (h he), ih]
      rfl

namespace Renumbered

variable {ρ : NodeId → NodeId} {t u : Tree} (h : Renumbered ρ t u)

include h

/-! ## Single nodes -/

theorem eq_iff {x y : NodeId} : ρ x = ρ y ↔ x = y := ⟨fun he => h.injective he, congrArg ρ⟩

theorem ne_iff {x y : NodeId} : (ρ x != ρ y) = (x != y) := by
  rw [Bool.eq_iff_iff, bne_iff_ne, bne_iff_ne, ne_eq, ne_eq, h.eq_iff]

theorem ne_comp (x : NodeId) : (fun y => y != ρ x) ∘ ρ = fun y => y != x := funext fun _ => h.ne_iff

theorem contains_map (l : List NodeId) (x : NodeId) : (l.map ρ).contains (ρ x) = l.contains x := by
  rw [Bool.eq_iff_iff, List.contains_iff_mem, List.contains_iff_mem, List.mem_map_of_injective h.injective]

theorem size_eq : ρ t.size = u.size := h.next 0

theorem lt_size_iff {x : NodeId} : ρ x < u.size ↔ x < t.size := by
  constructor
  · intro hx
    by_contra hle
    obtain ⟨k, rfl⟩ := Nat.exists_eq_add_of_le (Nat.le_of_not_lt hle)
    rw [h.next] at hx
    exact Nat.not_lt_of_le (Nat.le_add_right _ _) hx
  · intro hx
    by_contra hle
    obtain ⟨k, hk⟩ := Nat.exists_eq_add_of_le (Nat.le_of_not_lt hle)
    rw [← h.next] at hk
    exact Nat.not_lt_of_le (Nat.le_add_right _ _) (h.injective hk ▸ hx)

theorem kind (x : NodeId) : u.kind (ρ x) = t.kind x := by rw [Tree.kind, h.node]; rfl

theorem parent (x : NodeId) : u.parent (ρ x) = (t.parent x).map ρ := by rw [Tree.parent, h.node]; rfl

theorem children (x : NodeId) : u.children (ρ x) = (t.children x).map ρ := by rw [Tree.children, h.node]; rfl

theorem span (x : NodeId) : u.span (ρ x) = t.span x := by rw [Tree.span, h.node]; rfl

theorem name? (x : NodeId) : u.name? (ρ x) = t.name? x := name?_congr (h.kind x)

theorem attribute? (x : NodeId) (key : String) : u.attribute? (ρ x) key = t.attribute? x key := attribute?_congr (h.kind x) key

theorem isElement_comp : u.isElement ∘ ρ = t.isElement := funext fun x => isElement_congr (h.kind x)

theorem isNamed_comp (name : String) : u.isNamed name ∘ ρ = t.isNamed name := funext fun x => isNamed_congr (h.kind x) name

theorem isNamed (name : String) (x : NodeId) : u.isNamed name (ρ x) = t.isNamed name x := isNamed_congr (h.kind x) name

theorem ownText_comp : u.ownText ∘ ρ = t.ownText := funext fun x => by
  show u.ownText (ρ x) = t.ownText x
  rw [ownText, ownText, h.kind]

theorem elementChildren (x : NodeId) : u.elementChildren (ρ x) = (t.elementChildren x).map ρ := by
  rw [Tree.elementChildren, Tree.elementChildren, h.children, List.filter_map, h.isElement_comp]

theorem laterElements (x : NodeId) : u.laterElements (ρ x) = (t.laterElements x).map ρ := by
  rw [Tree.laterElements, Tree.laterElements, h.parent]
  cases t.parent x with
  | none => rfl
  | some p =>
    simp only [Option.map_some]
    rw [h.children, List.dropWhile_map, h.ne_comp, ← List.map_drop, List.filter_map, h.isElement_comp]

theorem isMarker_comp (type : MarkerType) : u.isMarker type ∘ ρ = t.isMarker type := funext fun x => by
  show u.isMarker type (ρ x) = t.isMarker type x
  rw [isMarker, isMarker, h.isNamed, h.attribute?]

/-! ## Walks -/

theorem walk (n : Nat) (todo : List NodeId) : u.walk n (todo.map ρ) = (t.walk n todo).map ρ := by
  induction n generalizing todo with
  | zero => rfl
  | succ n ih =>
    cases todo with
    | nil => rfl
    | cons x todo => rw [List.map_cons, Tree.walk, Tree.walk, h.children, ← List.map_append, ih, List.map_cons]

theorem climb (n : Nat) (next : Option NodeId) : u.climb n (next.map ρ) = (t.climb n next).map ρ := by
  induction n generalizing next with
  | zero => cases next <;> rfl
  | succ n ih =>
    cases next with
    | none => rfl
    | some x => rw [Option.map_some, Tree.climb, Tree.climb, h.parent, ih, List.map_cons]

theorem twigTo (n : Nat) (x : NodeId) : u.twigTo n (ρ x) = t.twigTo n x := by
  induction n generalizing x with
  | zero => rw [Tree.twigTo, Tree.twigTo, h.kind]
  | succ n ih =>
    rw [Tree.twigTo, Tree.twigTo, h.kind, h.children, List.map_map]
    exact congrArg _ (List.map_congr_left fun c _ => ih c)

section wellFormed

variable (ht : t.WellFormed)

include ht

theorem descendants (x : NodeId) : u.descendants (ρ x) = (t.descendants x).map ρ := by
  rw [Tree.descendants, Tree.descendants, h.children, h.walk]
  have hload := ht.load_children_le x
  exact congrArg _ (ht.walk_enough _ _ (fun _ hc => ht.lt_size_of_mem hc) (Nat.le_trans hload h.grows) _ hload)

theorem subtree (x : NodeId) : u.subtree (ρ x) = (t.subtree x).map ρ := by
  rw [Tree.subtree, Tree.subtree, h.descendants ht, List.map_cons]

theorem subtrees (ids : List NodeId) : (ids.map ρ).flatMap u.subtree = (ids.flatMap t.subtree).map ρ := by
  rw [List.flatMap_map, List.map_flatMap]
  exact congrArg (ids.flatMap ·) (funext fun x => h.subtree ht x)

theorem ancestors (x : NodeId) : u.ancestors (ρ x) = (t.ancestors x).map ρ := by
  rw [Tree.ancestors, Tree.ancestors, h.parent, h.climb]
  cases hp : t.parent x with
  | none => cases u.size <;> cases t.size <;> rfl
  | some p =>
    have hle := t.card_above_le p
    exact congrArg _ (ht.climb_enough _ _ p (Nat.le_trans hle h.grows) hle (ht.parent_lt_size hp))

theorem findAncestor? (x : NodeId) (name : String) : u.findAncestor? (ρ x) name = (t.findAncestor? x name).map ρ := by
  rw [Tree.findAncestor?, Tree.findAncestor?, h.ancestors ht, List.find?_map, h.isNamed_comp]

theorem findDescendant? (x : NodeId) (name : String) : u.findDescendant? (ρ x) name = (t.findDescendant? x name).map ρ := by
  rw [Tree.findDescendant?, Tree.findDescendant?, h.descendants ht, List.find?_map, h.isNamed_comp]

theorem textContent (x : NodeId) : u.textContent (ρ x) = t.textContent x := by
  rw [Tree.textContent, Tree.textContent, h.subtree ht, List.map_map, h.ownText_comp]

theorem holdsMarker_comp (type : MarkerType) : u.holdsMarker type ∘ ρ = t.holdsMarker type := funext fun x => by
  show u.holdsMarker type (ρ x) = t.holdsMarker type x
  rw [holdsMarker, holdsMarker, h.subtree ht, List.any_map, h.isMarker_comp]

theorem subtreeToMarkup (x : NodeId) : u.subtreeToMarkup (ρ x) = t.subtreeToMarkup x := by
  refine subtreeToMarkup_congr ?_
  have hle := t.card_below_le x
  rw [twig, twig, h.twigTo, ht.isLinked.twigTo_enough (Nat.le_trans hle h.grows) hle]

end wellFormed

/-! ## Single edits -/

theorem update {f g : Node → Node} (hfg : ∀ n, g (n.renumber ρ) = (f n).renumber ρ) (id : NodeId) :
    Renumbered ρ (t.update id f) (u.update (ρ id) g) where
  injective := h.injective
  grows := by rw [size_update, size_update]; exact h.grows
  next k := by rw [size_update, size_update]; exact h.next k
  node x := by
    simp only [node_update, h.node, h.eq_iff, h.lt_size_iff]
    split
    · exact hfg _
    · rfl

theorem setKind (id : NodeId) (k : Kind) : Renumbered ρ (t.setKind id k) (u.setKind (ρ id) k) :=
  h.update (f := fun n => { n with kind := k }) (g := fun n => { n with kind := k }) (fun _ => rfl) id

theorem setSpan (id : NodeId) (s : Span) : Renumbered ρ (t.setSpan id s) (u.setSpan (ρ id) s) :=
  h.update (f := fun n => { n with span := s }) (g := fun n => { n with span := s }) (fun _ => rfl) id

theorem setParent (id : NodeId) (p : Option NodeId) : Renumbered ρ (t.setParent id p) (u.setParent (ρ id) (p.map ρ)) :=
  h.update (f := fun n => { n with parent := p }) (g := fun n => { n with parent := p.map ρ }) (fun _ => rfl) id

theorem mapChildren (id : NodeId) {f g : List NodeId → List NodeId} (hfg : ∀ l : List NodeId, g (l.map ρ) = (f l).map ρ) :
    Renumbered ρ (t.mapChildren id f) (u.mapChildren (ρ id) g) := by
  refine h.update (f := fun n => { n with children := f n.children }) (g := fun n => { n with children := g n.children }) (fun n => ?_) id
  show (⟨n.kind, n.parent.map ρ, g (n.children.map ρ), n.span⟩ : Node) = _
  rw [hfg]
  rfl

theorem create (k : Kind) (s : Span) : Renumbered ρ (t.create k s).2 (u.create k s).2 where
  injective := h.injective
  grows := by rw [size_create, size_create]; exact Nat.succ_le_succ h.grows
  next i := by rw [size_create, size_create, Nat.add_assoc, Nat.add_assoc]; exact h.next (1 + i)
  node x := by
    simp only [node_create, ← h.size_eq, h.eq_iff, h.node]
    split <;> rfl

theorem setAttribute (id : NodeId) (key value : String) : Renumbered ρ (t.setAttribute id key value) (u.setAttribute (ρ id) key value) := by
  unfold Tree.setAttribute
  rw [h.kind]
  split
  · exact h.setKind id _
  · exact h

/-! ## Links -/

theorem detach (id : NodeId) : Renumbered ρ (t.detach id) (u.detach (ρ id)) := by
  unfold Tree.detach
  rw [h.parent]
  cases t.parent id with
  | none => exact h
  | some p => exact (h.setParent id none).mapChildren p fun l => by rw [List.filter_map, h.ne_comp]

theorem detachAll (ids : List NodeId) : Renumbered ρ (t.detachAll ids) (u.detachAll (ids.map ρ)) := by
  induction ids generalizing t u with
  | nil => exact h
  | cons x ids ih => exact ih (h.detach x)

theorem adopt (p x : NodeId) : Renumbered ρ (t.adopt p x) (u.adopt (ρ p) (ρ x)) :=
  (h.setParent x (some p)).mapChildren p fun l => by rw [List.map_append]; rfl

theorem appendChild (p x : NodeId) : Renumbered ρ (t.appendChild p x) (u.appendChild (ρ p) (ρ x)) := (h.detach x).adopt p x

theorem prependChild (p x : NodeId) : Renumbered ρ (t.prependChild p x) (u.prependChild (ρ p) (ρ x)) :=
  ((h.detach x).setParent x (some p)).mapChildren p fun _ => rfl

theorem insertBeside {place : NodeId → NodeId → List NodeId → List NodeId}
    (hplace : ∀ anchor x l, place (ρ anchor) (ρ x) (l.map ρ) = (place anchor x l).map ρ) (anchor x : NodeId) :
    Renumbered ρ (t.insertBeside place anchor x) (u.insertBeside place (ρ anchor) (ρ x)) := by
  unfold Tree.insertBeside
  by_cases hne : anchor = x
  · rw [if_pos hne, if_pos (congrArg ρ hne)]
    exact h
  · rw [if_neg hne, if_neg fun he => hne (h.injective he), h.parent]
    cases t.parent anchor with
    | none => exact h
    | some p =>
      have hcut := h.detach x
      simp only [Option.map_some]
      rw [hcut.children, h.contains_map]
      split
      · exact (hcut.setParent x (some p)).mapChildren p (hplace anchor x)
      · exact hcut

theorem insertAfter (anchor x : NodeId) : Renumbered ρ (t.insertAfter anchor x) (u.insertAfter (ρ anchor) (ρ x)) :=
  h.insertBeside (map_insertAfter h.injective) anchor x

theorem insertBefore (anchor x : NodeId) : Renumbered ρ (t.insertBefore anchor x) (u.insertBefore (ρ anchor) (ρ x)) :=
  h.insertBeside (map_insertBefore h.injective) anchor x

theorem insertAllAfter (anchor : NodeId) (ids : List NodeId) :
    Renumbered ρ (t.insertAllAfter anchor ids) (u.insertAllAfter (ρ anchor) (ids.map ρ)) := by
  induction ids generalizing t u anchor with
  | nil => exact h
  | cons x ids ih => exact ih (h.insertAfter anchor x) x

theorem unwrap (id : NodeId) : Renumbered ρ (t.unwrap id) (u.unwrap (ρ id)) := by
  unfold Tree.unwrap
  rw [h.children]
  exact (h.insertAllAfter id (t.children id)).detach id

/-- A new node as the last child of a node. -/
theorem createBelow (p : NodeId) (k : Kind) (s : Span) :
    Renumbered ρ ((t.create k s).2.appendChild p t.size) ((u.create k s).2.appendChild (ρ p) u.size) := by
  rw [← h.size_eq]
  exact (h.create k s).appendChild p t.size

theorem setText (id : NodeId) (data : String) : Renumbered ρ (t.setText id data) (u.setText (ρ id) data) := by
  unfold Tree.setText
  rw [h.kind, h.children]
  split
  · exact h.setKind id _
  · exact h.setKind id _
  · exact (h.detachAll (t.children id)).createBelow id _ _
  · exact h

/-! ## Copies -/

/-- Copies of as many levels. -/
theorem copyTo (n : Nat) (id : NodeId) : Renumbered ρ (copyTo n t id).2 (copyTo n u (ρ id)).2 := by
  induction n generalizing t u id with
  | zero =>
    rw [Tree.copyTo, Tree.copyTo, h.kind, h.span]
    exact h.create _ _
  | succ n ih =>
    have hfold : ∀ (cs : List NodeId) (v w : Tree), Renumbered ρ v w → Renumbered ρ
        (cs.foldl (fun v c => (Tree.copyTo n v c).2.adopt t.size (Tree.copyTo n v c).1) v)
        ((cs.map ρ).foldl (fun w c => (Tree.copyTo n w c).2.adopt u.size (Tree.copyTo n w c).1) w) := by
      intro cs
      induction cs with
      | nil => exact fun _ _ hvw => hvw
      | cons c cs ihc =>
        intro v w hvw
        have hone := (ih hvw c).adopt t.size v.size
        rw [hvw.size_eq, h.size_eq, ← fst_copyTo n v c, ← fst_copyTo n w (ρ c)] at hone
        exact ihc _ _ hone
    simp only [Tree.copyTo, h.kind, h.span, h.children, create_fst]
    exact hfold (t.children id) _ _ (h.create _ _)

theorem deepCopy (ht : t.WellFormed) {id : NodeId} (hid : id < t.size) :
    (u.deepCopy (ρ id)).1 = ρ (t.deepCopy id).1 ∧ Renumbered ρ (t.deepCopy id).2 (u.deepCopy (ρ id)).2 := by
  have hle := t.card_below_le id
  have henough := ht.copyTo_enough (Nat.le_refl _) (fun _ _ => rfl) hid (Nat.le_trans hle h.grows) hle
  have hcopy := h.copyTo u.size id
  rw [henough] at hcopy
  refine ⟨?_, hcopy⟩
  rw [Tree.deepCopy, Tree.deepCopy, fst_copyTo, fst_copyTo, h.size_eq]

end Renumbered

/-! ## Trees that have grown -/

/-- Numbers from `n` on come `d` places further on. -/
def movedOn (n d x : Nat) : Nat := if x < n then x else x + d

theorem movedOn_of_lt {n d x : Nat} (h : x < n) : movedOn n d x = x := if_pos h

theorem movedOn_of_le {n d x : Nat} (h : n ≤ x) : movedOn n d x = x + d := if_neg (Nat.not_lt_of_le h)

theorem movedOn_injective (n d : Nat) : Function.Injective (movedOn n d) := by
  intro x y he
  unfold movedOn at he
  split at he <;> split at he <;> omega

theorem map_movedOn {n d : Nat} {ids : List NodeId} (h : ∀ x ∈ ids, x < n) : ids.map (movedOn n d) = ids :=
  (List.map_congr_left fun x hx => movedOn_of_lt (h x hx)).trans (List.map_id' ids)

/-- A tree that has grown holds what was there before. The old nodes keep their numbers, and the
    numbers of new nodes are further on by as many as were added. -/
theorem Beyond.renumbered {t u : Tree} (h : Beyond t.size t u) (ht : t.WellFormed) :
    Renumbered (movedOn t.size (u.size - t.size)) t u where
  injective := movedOn_injective _ _
  grows := h.grows
  next k := by
    rw [movedOn_of_le (Nat.le_add_right _ _), Nat.add_right_comm, Nat.add_sub_cancel' h.grows]
  node x := by
    by_cases hx : x < t.size
    · -- the links of an old node lead to old nodes
      have hparent : (t.node x).parent.map (movedOn t.size (u.size - t.size)) = (t.node x).parent := by
        cases hp : (t.node x).parent with
        | none => rfl
        | some p => exact congrArg some (movedOn_of_lt (ht.parent_lt_size hp))
      have hchildren : (t.node x).children.map (movedOn t.size (u.size - t.size)) = (t.node x).children :=
        map_movedOn fun c hc => ht.lt_size_of_mem hc
      rw [movedOn_of_lt hx, h.same hx, Node.renumber, hparent, hchildren]
    · have hle := Nat.le_of_not_lt hx
      have hle' : u.size ≤ x + (u.size - t.size) := by
        have hsum := Nat.add_le_add_right hle (u.size - t.size)
        rwa [Nat.add_sub_cancel' h.grows] at hsum
      rw [movedOn_of_le hle, node_of_size_le hle, node_of_size_le hle']
      rfl

end Tree

end MailMerge
