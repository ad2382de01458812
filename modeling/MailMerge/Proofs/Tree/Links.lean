/-
  MailMerge.Proofs.Tree.Links — what an edit does to the links of a tree.

  An edit that moves one node is `detach`, which cuts the link to its parent, and then
  `attach`, which makes a new one. Of every edit it is told what the kind, the parent and
  the children of any node are afterwards.

  Proved: both keep a tree well formed (`WellFormed.detach`, `WellFormed.attach`), and both
  change what stands within what in a way that the old tree tells (`within_detach`,
  `within_attach`).
-/

import MailMerge.Proofs.Tree.WellFormed

namespace MailMerge.Tree

/-! ## One node -/

@[simp] theorem size_update (t : Tree) (id : NodeId) (f : Node → Node) : (t.update id f).size = t.size := by
  simp [update, size]

theorem node_update (t : Tree) (id : NodeId) (f : Node → Node) (x : NodeId) :
    (t.update id f).node x = if x = id ∧ x < t.size then f (t.node x) else t.node x := by
  simp only [update, node, size, Array.getD_eq_getD_getElem?, Array.getElem?_modify]
  by_cases hx : x = id
  · subst hx
    by_cases hs : x < t.nodes.size
    · simp [hs]
    · simp [hs]
  · simp [hx, Ne.symm hx]

section fields

variable (t : Tree) (id : NodeId)

@[simp] theorem size_setKind (k : Kind) : (t.setKind id k).size = t.size := size_update _ _ _
@[simp] theorem size_setParent (p : Option NodeId) : (t.setParent id p).size = t.size := size_update _ _ _
@[simp] theorem size_setSpan (s : Span) : (t.setSpan id s).size = t.size := size_update _ _ _
@[simp] theorem size_mapChildren (f : List NodeId → List NodeId) : (t.mapChildren id f).size = t.size := size_update _ _ _

variable (x : NodeId)

theorem parent_update {f : Node → Node} (hf : ∀ n, (f n).parent = n.parent) : (t.update id f).parent x = t.parent x := by
  rw [parent, node_update]
  split
  · rw [hf]; rfl
  · rfl

theorem children_update {f : Node → Node} (hf : ∀ n, (f n).children = n.children) :
    (t.update id f).children x = t.children x := by
  rw [children, node_update]
  split
  · rw [hf]; rfl
  · rfl

theorem kind_update {f : Node → Node} (hf : ∀ n, (f n).kind = n.kind) : (t.update id f).kind x = t.kind x := by
  rw [kind, node_update]
  split
  · rw [hf]; rfl
  · rfl

@[simp] theorem parent_setKind (k : Kind) : (t.setKind id k).parent x = t.parent x := parent_update t id x fun _ => rfl
@[simp] theorem children_setKind (k : Kind) : (t.setKind id k).children x = t.children x := children_update t id x fun _ => rfl
@[simp] theorem parent_setSpan (s : Span) : (t.setSpan id s).parent x = t.parent x := parent_update t id x fun _ => rfl
@[simp] theorem children_setSpan (s : Span) : (t.setSpan id s).children x = t.children x := children_update t id x fun _ => rfl
@[simp] theorem kind_setSpan (s : Span) : (t.setSpan id s).kind x = t.kind x := kind_update t id x fun _ => rfl
@[simp] theorem kind_setParent (p : Option NodeId) : (t.setParent id p).kind x = t.kind x := kind_update t id x fun _ => rfl
@[simp] theorem children_setParent (p : Option NodeId) : (t.setParent id p).children x = t.children x :=
  children_update t id x fun _ => rfl
@[simp] theorem kind_mapChildren (f : List NodeId → List NodeId) : (t.mapChildren id f).kind x = t.kind x :=
  kind_update t id x fun _ => rfl
@[simp] theorem parent_mapChildren (f : List NodeId → List NodeId) : (t.mapChildren id f).parent x = t.parent x :=
  parent_update t id x fun _ => rfl

theorem kind_setKind (k : Kind) : (t.setKind id k).kind x = if x = id ∧ x < t.size then k else t.kind x := by
  rw [kind, setKind, node_update]
  split <;> rfl

theorem parent_setParent (p : Option NodeId) :
    (t.setParent id p).parent x = if x = id ∧ x < t.size then p else t.parent x := by
  rw [parent, setParent, node_update]
  split <;> rfl

theorem children_mapChildren (f : List NodeId → List NodeId) :
    (t.mapChildren id f).children x = if x = id ∧ x < t.size then f (t.children x) else t.children x := by
  rw [children, mapChildren, node_update]
  split <;> rfl

@[simp] theorem parent_setAttribute (key value : String) : (t.setAttribute id key value).parent x = t.parent x := by
  unfold setAttribute
  split
  · exact parent_setKind _ _ _ _
  · rfl

@[simp] theorem children_setAttribute (key value : String) : (t.setAttribute id key value).children x = t.children x := by
  unfold setAttribute
  split
  · exact children_setKind _ _ _ _
  · rfl

end fields

/-- What a node is called and carries is read off its kind. -/
theorem name?_congr {t u : Tree} {x y : NodeId} (h : u.kind y = t.kind x) : u.name? y = t.name? x := by
  rw [name?, name?, h]

theorem isElement_congr {t u : Tree} {x y : NodeId} (h : u.kind y = t.kind x) : u.isElement y = t.isElement x := by
  rw [isElement, isElement, name?_congr h]

theorem isNamed_congr {t u : Tree} {x y : NodeId} (h : u.kind y = t.kind x) (name : String) :
    u.isNamed name y = t.isNamed name x := by
  rw [isNamed, isNamed, name?_congr h]

theorem isNamed_of_name? {t u : Tree} {x : NodeId} (h : u.name? x = t.name? x) (name : String) :
    u.isNamed name x = t.isNamed name x := by rw [isNamed, isNamed, h]

theorem not_isNamed_of_isNamed {t : Tree} {x : NodeId} {name other : String} (h : t.isNamed name x = true) (hne : name ≠ other) :
    t.isNamed other x = false := by
  rw [isNamed, beq_iff_eq] at h
  rw [isNamed, h, beq_eq_false_iff_ne]
  exact fun he => hne (Option.some.inj he)

theorem attribute?_congr {t u : Tree} {x y : NodeId} (h : u.kind y = t.kind x) (key : String) :
    u.attribute? y key = t.attribute? x key := by
  rw [attribute?, attribute?, h]

/-! ## New nodes -/

@[simp] theorem create_fst (t : Tree) (k : Kind) (s : Span) : (t.create k s).1 = t.size := rfl

@[simp] theorem size_create (t : Tree) (k : Kind) (s : Span) : (t.create k s).2.size = t.size + 1 := by
  simp [create, size]

theorem node_create (t : Tree) (k : Kind) (s : Span) (x : NodeId) :
    (t.create k s).2.node x = if x = t.size then lone k s else t.node x := by
  simp only [create, node, size, Array.getD_eq_getD_getElem?, Array.getElem?_push]
  split <;> simp

theorem kind_create (t : Tree) (k : Kind) (s : Span) (x : NodeId) :
    (t.create k s).2.kind x = if x = t.size then k else t.kind x := by
  rw [kind, node_create]
  split <;> rfl

theorem isElement_create (t : Tree) (name : String) (attributes : List (String × String)) (s : Span) :
    (t.create (.element name attributes) s).2.isElement t.size = true := by
  rw [isElement, name?, kind_create, if_pos rfl]
  rfl

@[simp] theorem parent_create (t : Tree) (k : Kind) (s : Span) (x : NodeId) : (t.create k s).2.parent x = t.parent x := by
  rw [parent, node_create]
  split
  · next h => rw [h, parent_of_size_le (Nat.le_refl _)]; rfl
  · rfl

@[simp] theorem children_create (t : Tree) (k : Kind) (s : Span) (x : NodeId) :
    (t.create k s).2.children x = t.children x := by
  rw [children, node_create]
  split
  · next h => rw [h, children_of_size_le (Nat.le_refl _)]; rfl
  · rfl

/-! ## Trees with the same links -/

/-- Parents and children are the same, and elements are elements. -/
structure SameLinks (t u : Tree) : Prop where
  size : t.size ≤ u.size
  parent : ∀ x, u.parent x = t.parent x
  children : ∀ x, u.children x = t.children x
  element : ∀ x, t.isElement x = true → u.isElement x = true

theorem SameLinks.within {t u : Tree} (hs : SameLinks t u) {a d : NodeId} : u.Within a d ↔ t.Within a d := by
  simp only [Within, hs.parent]

theorem SameLinks.wellFormed {t u : Tree} (hs : SameLinks t u) (h : t.WellFormed) : u.WellFormed where
  rooted := Nat.lt_of_lt_of_le h.rooted hs.size
  top := (hs.parent root).trans h.top
  linked p c := by rw [hs.children, hs.parent]; exact h.linked p c
  distinct p := by rw [hs.children]; exact h.distinct p
  inner p c hp := (h.inner p c (hs.parent c ▸ hp)).imp_right (hs.element p)
  grounded := by simp only [hs.parent]; exact h.grounded

theorem sameLinks_create (t : Tree) (k : Kind) (s : Span) : SameLinks t (t.create k s).2 where
  size := by simp
  parent := parent_create t k s
  children := children_create t k s
  element x hx := by
    have hlt := lt_size_of_isElement hx
    rw [isElement_congr (t := t) (x := x)]
    · exact hx
    · rw [kind_create, if_neg (Nat.ne_of_lt hlt)]

theorem sameLinks_setSpan (t : Tree) (id : NodeId) (s : Span) : SameLinks t (t.setSpan id s) where
  size := by simp
  parent := by simp
  children := by simp
  element x hx := by rw [isElement_congr (kind_setSpan t id x s)]; exact hx

theorem sameLinks_setKind {t : Tree} {id : NodeId} {k : Kind} (hk : t.isElement id = true → ∃ n as, k = .element n as) :
    SameLinks t (t.setKind id k) where
  size := by simp
  parent := by simp
  children := by simp
  element x hx := by
    have hkind := kind_setKind t id x k
    by_cases hid : x = id ∧ x < t.size
    · rw [if_pos hid] at hkind
      obtain ⟨n, as, rfl⟩ := hk (hid.1 ▸ hx)
      rw [isElement, name?, hkind]; rfl
    · rw [if_neg hid] at hkind
      rw [isElement_congr hkind]; exact hx

/-! ## Leaving the parent -/

@[simp] theorem size_detach (t : Tree) (x : NodeId) : (t.detach x).size = t.size := by
  unfold detach; split <;> simp

@[simp] theorem kind_detach (t : Tree) (x y : NodeId) : (t.detach x).kind y = t.kind y := by
  unfold detach; split <;> simp

theorem parent_detach (t : Tree) (x y : NodeId) : (t.detach x).parent y = if y = x then none else t.parent y := by
  unfold detach
  cases hp : t.parent x with
  | none =>
    show t.parent y = _
    by_cases hy : y = x
    · rw [if_pos hy, hy, hp]
    · rw [if_neg hy]
  | some p =>
    simp only [parent_mapChildren, parent_setParent]
    by_cases hy : y = x
    · simp [hy, lt_size_of_parent hp]
    · simp [hy]

@[simp] theorem parent_detach_self (t : Tree) (x : NodeId) : (t.detach x).parent x = none := by simp [parent_detach]

theorem parent_detach_of_ne (t : Tree) {x y : NodeId} (h : y ≠ x) : (t.detach x).parent y = t.parent y := by
  rw [parent_detach, if_neg h]

theorem detach_of_parent_none {t : Tree} {x : NodeId} (h : t.parent x = none) : t.detach x = t := by
  unfold detach; rw [h]

namespace WellFormed

variable {t : Tree} (h : t.WellFormed)

include h

theorem children_detach (x q : NodeId) : (t.detach x).children q = (t.children q).filter (· != x) := by
  have hout : ∀ {q}, x ∉ t.children q → (t.children q).filter (· != x) = t.children q := by
    intro q hx
    refine List.filter_eq_self.mpr fun c hc => ?_
    simp only [bne_iff_ne, ne_eq]
    rintro rfl
    exact hx hc
  unfold Tree.detach
  cases hp : t.parent x with
  | none =>
    refine (hout fun hx => ?_).symm
    rw [h.parent_of_mem hx] at hp
    cases hp
  | some p =>
    simp only [children_mapChildren, size_setParent, children_setParent]
    by_cases hq : q = p
    · rw [if_pos ⟨hq, hq ▸ h.parent_lt_size hp⟩]
    · rw [if_neg fun he => hq he.1]
      refine (hout fun hx => hq ?_).symm
      rw [h.parent_of_mem hx] at hp
      exact Option.some.inj hp

theorem detach (x : NodeId) : (t.detach x).WellFormed where
  rooted := by rw [size_detach]; exact h.rooted
  top := by rw [parent_detach, h.top]; split <;> rfl
  linked p c := by
    rw [h.children_detach, List.mem_filter, h.linked, parent_detach, bne_iff_ne]
    by_cases hc : c = x <;> simp [hc]
  distinct p := by rw [h.children_detach]; exact (h.distinct p).filter _
  inner p c hp := by
    rw [parent_detach] at hp
    split at hp
    · cases hp
    · rw [isElement_congr (kind_detach t x p)]
      exact h.inner p c hp
  grounded := by
    refine Subrelation.wf (fun {p c} hp => ?_) h.grounded
    rw [parent_detach] at hp
    split at hp
    · cases hp
    · exact hp

/-- Only what was below the node from above it is cut off. -/
theorem within_detach {x a d : NodeId} : (t.detach x).Within a d ↔ t.Within a d ∧ (t.Within x d → t.Within x a) := by
  constructor
  · intro hw
    induction hw with
    | refl => exact ⟨within_refl t a, id⟩
    | @tail q c _ hc ih =>
      rw [parent_detach] at hc
      split at hc
      · cases hc
      · next hcx => exact ⟨within_parent ih.1 hc, fun hx => ih.2 (within_parent_of_ne hx hcx hc)⟩
  · rintro ⟨hw, hx⟩
    induction hw with
    | refl => exact within_refl _ a
    | @tail _ c haq hc ih =>
      have hcx : c ≠ x := by
        rintro rfl
        exact h.not_within_of_parent hc (within_trans (hx (within_refl t c)) haq)
      refine within_parent (ih fun hq => hx (within_parent hq hc)) ?_
      rw [parent_detach_of_ne t hcx]
      exact hc

end WellFormed

/-! ## Entering a parent -/

/-- Links a node without a parent below `p`, at the place that `place` gives it. -/
def attach (place : List NodeId → List NodeId) (t : Tree) (p x : NodeId) : Tree :=
  (t.setParent x (some p)).mapChildren p place

/-- One element more, and none twice. -/
structure Adds (x : NodeId) (l l' : List NodeId) : Prop where
  mem : ∀ c, c ∈ l' ↔ c = x ∨ c ∈ l
  nodup : x ∉ l → l.Nodup → l'.Nodup

theorem adds_append (x : NodeId) (l : List NodeId) : Adds x l (l ++ [x]) where
  mem c := by simp [or_comm]
  nodup hx hl := by
    refine List.nodup_append.mpr ⟨hl, List.nodup_singleton x, fun a ha b hb => ?_⟩
    obtain rfl := List.mem_singleton.mp hb
    rintro rfl
    exact hx ha

theorem adds_cons (x : NodeId) (l : List NodeId) : Adds x l (x :: l) where
  mem _ := List.mem_cons
  nodup hx hl := List.nodup_cons.mpr ⟨hx, hl⟩

@[simp] theorem size_attach (place : List NodeId → List NodeId) (t : Tree) (p x : NodeId) :
    (t.attach place p x).size = t.size := by simp [attach]

@[simp] theorem kind_attach (place : List NodeId → List NodeId) (t : Tree) (p x y : NodeId) :
    (t.attach place p x).kind y = t.kind y := by simp [attach]

theorem parent_attach (place : List NodeId → List NodeId) {t : Tree} {x : NodeId} (hx : x < t.size) (p y : NodeId) :
    (t.attach place p x).parent y = if y = x then some p else t.parent y := by
  simp only [attach, parent_mapChildren, parent_setParent]
  by_cases hy : y = x
  · simp [hy, hx]
  · simp [hy]

theorem children_attach (place : List NodeId → List NodeId) {t : Tree} {p : NodeId} (hp : p < t.size) (x q : NodeId) :
    (t.attach place p x).children q = if q = p then place (t.children p) else t.children q := by
  simp only [attach, children_mapChildren, size_setParent, children_setParent]
  by_cases hq : q = p
  · simp [hq, hp]
  · simp [hq]

/-- A node without a parent may stand below `p`, and `place` puts it into the list there. -/
structure Attachable (place : List NodeId → List NodeId) (t : Tree) (p x : NodeId) : Prop where
  parent : t.parent x = none
  ne_root : x ≠ root
  lt_size : x < t.size
  below : p < t.size
  inner : p = root ∨ t.isElement p = true
  apart : ¬ t.Within x p
  adds : Adds x (t.children p) (place (t.children p))

namespace WellFormed

variable {t : Tree} (h : t.WellFormed) {place : List NodeId → List NodeId} {p x : NodeId} (ha : Attachable place t p x)

include h ha

theorem attach : (t.attach place p x).WellFormed where
  rooted := by rw [size_attach]; exact h.rooted
  top := by rw [parent_attach place ha.lt_size, if_neg (Ne.symm ha.ne_root)]; exact h.top
  linked q c := by
    rw [children_attach place ha.below, parent_attach place ha.lt_size]
    by_cases hq : q = p
    · subst hq
      rw [if_pos rfl, ha.adds.mem, h.linked]
      by_cases hc : c = x <;> simp [hc]
    · rw [if_neg hq, h.linked]
      by_cases hc : c = x
      · subst hc
        rw [if_pos rfl, ha.parent]
        simp [Ne.symm hq]
      · rw [if_neg hc]
  distinct q := by
    rw [children_attach place ha.below]
    split
    · refine ha.adds.nodup (fun hx => ?_) (h.distinct p)
      have hp := h.parent_of_mem hx
      rw [ha.parent] at hp
      cases hp
    · exact h.distinct q
  inner q c hc := by
    rw [isElement_congr (kind_attach place t p x q)]
    rw [parent_attach place ha.lt_size] at hc
    split at hc
    · cases hc; exact ha.inner
    · exact h.inner q c hc
  grounded := by
    -- what does not stand within `x` is grounded as before, `p` included; then `x` is too
    have hout : ∀ d, ¬ t.Within x d → Acc (fun q c => (t.attach place p x).parent c = some q) d := by
      intro d
      induction d using h.grounded.induction with
      | _ d ih =>
        intro hd
        refine Acc.intro d fun q hq => ?_
        have hdx : d ≠ x := fun he => hd (he ▸ within_refl t _)
        rw [parent_attach place ha.lt_size, if_neg hdx] at hq
        exact ih q hq fun hw => hd (within_parent hw hq)
    refine ⟨fun d => ?_⟩
    induction d using h.grounded.induction with
    | _ d ih =>
      refine Acc.intro d fun q hq => ?_
      rw [parent_attach place ha.lt_size] at hq
      split at hq
      · cases hq; exact hout p ha.apart
      · exact ih q hq

end WellFormed

/-- What stood within `x` now also stands within what `p` stands within. -/
theorem Attachable.within_attach {place : List NodeId → List NodeId} {t : Tree} {p x : NodeId} (ha : Attachable place t p x)
    {a d : NodeId} : (t.attach place p x).Within a d ↔ t.Within a d ∨ t.Within a p ∧ t.Within x d := by
  have hmono : ∀ {a d}, t.Within a d → (t.attach place p x).Within a d := by
    intro a d hw
    induction hw with
    | refl => exact within_refl _ a
    | @tail q c _ hc ih =>
      refine within_parent ih ?_
      rw [parent_attach place ha.lt_size]
      split
      · next he => rw [he, ha.parent] at hc; cases hc
      · exact hc
  constructor
  · intro hw
    induction hw with
    | refl => exact Or.inl (within_refl t a)
    | @tail q c _ hc ih =>
      rw [parent_attach place ha.lt_size] at hc
      split at hc
      · next he =>
        cases hc
        exact Or.inr ⟨ih.elim id And.left, he ▸ within_refl t _⟩
      · exact ih.imp (within_parent · hc) fun ⟨hap, hxq⟩ => ⟨hap, within_parent hxq hc⟩
  · rintro (hw | ⟨hap, hxd⟩)
    · exact hmono hw
    · refine within_trans (within_parent (hmono hap) ?_) (hmono hxd)
      rw [parent_attach place ha.lt_size, if_pos rfl]

/-! ## Moving -/

/-- A node leaves its parent and enters another one. -/
def move (place : List NodeId → List NodeId) (t : Tree) (p x : NodeId) : Tree := (t.detach x).attach place p x

theorem adds_insertAfter {anchor x : NodeId} {l : List NodeId} (ha : anchor ∈ l) : Adds x l (Siblings.insertAfter anchor x l) := by
  induction l with
  | nil => cases ha
  | cons c l ih =>
    rw [Siblings.insertAfter]
    by_cases hc : c = anchor
    · rw [if_pos hc]
      refine ⟨fun d => by simp only [List.mem_cons]; tauto, fun hx hl => ?_⟩
      rw [List.nodup_cons] at hl ⊢
      rw [List.mem_cons, not_or] at hx
      refine ⟨?_, List.nodup_cons.mpr ⟨hx.2, hl.2⟩⟩
      rw [List.mem_cons, not_or]
      exact ⟨Ne.symm hx.1, hl.1⟩
    · rw [if_neg hc]
      obtain ⟨hmem, hnd⟩ := ih ((List.mem_cons.mp ha).resolve_left (Ne.symm hc))
      refine ⟨fun d => by simp only [List.mem_cons, hmem]; tauto, fun hx hl => ?_⟩
      rw [List.nodup_cons] at hl ⊢
      rw [List.mem_cons, not_or] at hx
      refine ⟨?_, hnd hx.2 hl.2⟩
      rw [hmem, not_or]
      exact ⟨Ne.symm hx.1, hl.1⟩

theorem adds_insertBefore {anchor x : NodeId} {l : List NodeId} (ha : anchor ∈ l) : Adds x l (Siblings.insertBefore anchor x l) := by
  induction l with
  | nil => cases ha
  | cons c l ih =>
    rw [Siblings.insertBefore]
    by_cases hc : c = anchor
    · rw [if_pos hc]
      exact adds_cons x (c :: l)
    · rw [if_neg hc]
      obtain ⟨hmem, hnd⟩ := ih ((List.mem_cons.mp ha).resolve_left (Ne.symm hc))
      refine ⟨fun d => by simp only [List.mem_cons, hmem]; tauto, fun hx hl => ?_⟩
      rw [List.nodup_cons] at hl ⊢
      rw [List.mem_cons, not_or] at hx
      refine ⟨?_, hnd hx.2 hl.2⟩
      rw [hmem, not_or]
      exact ⟨Ne.symm hx.1, hl.1⟩

/-- A node may be moved below `p`. -/
structure Movable (t : Tree) (p x : NodeId) : Prop where
  ne_root : x ≠ root
  lt_size : x < t.size
  below : p < t.size
  inner : p = root ∨ t.isElement p = true
  apart : ¬ t.Within x p

section move

variable {place : List NodeId → List NodeId} {t : Tree} {p x : NodeId}

theorem Movable.attachable (hm : Movable t p x) (h : t.WellFormed) (hadd : Adds x ((t.children p).filter (· != x)) (place ((t.children p).filter (· != x)))) :
    Attachable place (t.detach x) p x where
  parent := parent_detach_self t x
  ne_root := hm.ne_root
  lt_size := by rw [size_detach]; exact hm.lt_size
  below := by rw [size_detach]; exact hm.below
  inner := by rw [isElement_congr (kind_detach t x p)]; exact hm.inner
  apart hw := hm.apart (h.within_detach.mp hw).1
  adds := by rw [h.children_detach]; exact hadd

@[simp] theorem size_move (place : List NodeId → List NodeId) (t : Tree) (p x : NodeId) :
    (t.move place p x).size = t.size := by simp [move]

@[simp] theorem kind_move (place : List NodeId → List NodeId) (t : Tree) (p x y : NodeId) :
    (t.move place p x).kind y = t.kind y := by simp [move]

theorem parent_move (hm : Movable t p x) (y : NodeId) :
    (t.move place p x).parent y = if y = x then some p else t.parent y := by
  rw [move, parent_attach place (by rw [size_detach]; exact hm.lt_size), parent_detach]
  split <;> rfl

theorem children_move (hm : Movable t p x) (h : t.WellFormed) (q : NodeId) :
    (t.move place p x).children q =
      if q = p then place ((t.children p).filter (· != x)) else (t.children q).filter (· != x) := by
  rw [move, children_attach place (by rw [size_detach]; exact hm.below), h.children_detach, h.children_detach]

theorem WellFormed.move (h : t.WellFormed) (hm : Movable t p x) (hadd : Adds x ((t.children p).filter (· != x)) (place ((t.children p).filter (· != x)))) :
    (t.move place p x).WellFormed := (h.detach x).attach (hm.attachable h hadd)

/-- What stands within what after a move did before, or came with what was moved. -/
theorem within_of_move (h : t.WellFormed) (hm : Movable t p x) (hadd : Adds x ((t.children p).filter (· != x)) (place ((t.children p).filter (· != x)))) {a d : NodeId}
    (hw : (t.move place p x).Within a d) : t.Within a d ∨ t.Within a p ∧ t.Within x d := by
  rcases (hm.attachable h hadd).within_attach.mp hw with hw | ⟨hap, hxd⟩
  · exact Or.inl (h.within_detach.mp hw).1
  · exact Or.inr ⟨(h.within_detach.mp hap).1, (h.within_detach.mp hxd).1⟩

end move

theorem appendChild_eq (t : Tree) (p x : NodeId) : t.appendChild p x = t.move (· ++ [x]) p x := rfl

theorem insertBeside_self (place : NodeId → NodeId → List NodeId → List NodeId) (t : Tree) (x : NodeId) :
    insertBeside place t x x = t := if_pos rfl

theorem insertBeside_of_parent_none (place : NodeId → NodeId → List NodeId → List NodeId) {t : Tree} {anchor : NodeId}
    (hp : t.parent anchor = none) (x : NodeId) : insertBeside place t anchor x = t := by
  unfold insertBeside
  rw [hp]
  split <;> rfl

theorem WellFormed.insertBeside_eq (place : NodeId → NodeId → List NodeId → List NodeId) {t : Tree} (h : t.WellFormed)
    {anchor x p : NodeId} (hne : anchor ≠ x) (hp : t.parent anchor = some p) :
    insertBeside place t anchor x = t.move (place anchor x) p x := by
  unfold insertBeside
  rw [if_neg hne, hp]
  have hmem : anchor ∈ (t.detach x).children p := by
    rw [h.children_detach, List.mem_filter, bne_iff_ne]
    exact ⟨h.mem_of_parent hp, hne⟩
  simp only [List.contains_iff_mem, hmem, if_true]
  rfl

end MailMerge.Tree
