/-
  MailMerge.Proofs.Tree.Twigs — how edits of child lists show in twigs.

  A twig tells the kinds of all nodes within a node. Edits of links leave the kinds alone,
  and a node looks the same as before as long as no node within it gets other children.

  Proved: what a kind within a twig says about nodes (`twig_has`); which children nodes have
  after nodes are put behind another or taken out (`children_insertAllAfter`,
  `children_detachAll`).
-/

import MailMerge.Proofs.Field.Anchors
import MailMerge.Proofs.Splice.Edits
import MailMerge.Proofs.Tree.Copy

namespace MailMerge

namespace Kind

def isNamed (name : String) : Kind → Bool
  | element n _ => n == name
  | _ => false

/-- A node of that kind may be the marker of a field. -/
def opensField : Kind → Bool
  | element name attributes => name == Word.simpleField ||
      (name == Word.fieldChar && attributes.lookup Word.fieldCharType == some MarkerType.opening.value)
  | _ => false

end Kind

namespace Twig

mutual

/-- The kind of some node satisfies `p`. -/
def has (p : Kind → Bool) : Twig → Bool
  | node k twigs => p k || hasIn p twigs

def hasIn (p : Kind → Bool) : List Twig → Bool
  | [] => false
  | w :: ws => has p w || hasIn p ws

end

theorem hasIn_eq_false {p : Kind → Bool} {ws : List Twig} : hasIn p ws = false ↔ ∀ w ∈ ws, w.has p = false := by
  induction ws with
  | nil => simp [hasIn]
  | cons w ws ih => simp [hasIn, ih]

theorem hasIn_append (p : Kind → Bool) (ws ws' : List Twig) : hasIn p (ws ++ ws') = (hasIn p ws || hasIn p ws') := by
  induction ws with
  | nil => rfl
  | cons w ws ih => rw [List.cons_append, hasIn, hasIn, ih, Bool.or_assoc]

end Twig

namespace Tree

theorem isNamed_eq (t : Tree) (name : String) (id : NodeId) : t.isNamed name id = (t.kind id).isNamed name := by
  unfold isNamed name?
  cases t.kind id <;> rfl

theorem isNamed_of_kind {t : Tree} {id : NodeId} {k : Kind} (h : t.kind id = k) (name : String) :
    t.isNamed name id = k.isNamed name := by rw [isNamed_eq, h]

theorem opensField_eq (t : Tree) (id : NodeId) : t.opensField id = (t.kind id).opensField := by
  unfold opensField isMarker attribute?
  rw [isNamed_eq, isNamed_eq]
  cases t.kind id <;> rfl

theorem isElement_of_kind {t : Tree} {id : NodeId} {name : String} {as : List (String × String)}
    (h : t.kind id = .element name as) : t.isElement id = true := by rw [isElement, name?, h]; rfl

/-! ## Looking at nodes -/

namespace WellFormed

variable {t : Tree} (h : t.WellFormed)

include h

/-- A twig is taken apart into a kind and the twigs of the children. -/
theorem twig_node {a : NodeId} {k : Kind} {ws : List Twig} :
    t.twig a = .node k ws ↔ t.kind a = k ∧ (t.children a).map t.twig = ws := by
  rw [h.twig_eq, Twig.node.injEq]

theorem twig_has (p : Kind → Bool) (a : NodeId) : (t.twig a).has p = false ↔ ∀ d, t.Within a d → p (t.kind d) = false := by
  induction a using h.below_induction with
  | step a ih =>
    rw [h.twig_eq, Twig.has, Bool.or_eq_false_iff, Twig.hasIn_eq_false]
    constructor
    · intro hk d hd
      by_cases he : d = a
      · rw [he]; exact hk.1
      · obtain ⟨c, hc, hw⟩ := exists_child_of_within hd he
        exact (ih c (h.mem_of_parent hc)).mp (hk.2 _ (List.mem_map_of_mem (h.mem_of_parent hc))) d hw
    · intro hk
      refine ⟨hk a (within_refl t a), fun w hw => ?_⟩
      obtain ⟨c, hc, rfl⟩ := List.mem_map.mp hw
      exact (ih c hc).mpr fun d hd => hk d (within_trans (within_of_parent (h.parent_of_mem hc)) hd)

/-- No node below the children is of a kind that their twigs do not have. -/
theorem hasIn_twigs (p : Kind → Bool) (cs : List NodeId) :
    Twig.hasIn p (cs.map t.twig) = false ↔ ∀ d ∈ cs.flatMap t.subtree, p (t.kind d) = false := by
  rw [Twig.hasIn_eq_false]
  constructor
  · intro hcs d hd
    obtain ⟨c, hc, hdc⟩ := List.mem_flatMap.mp hd
    exact (h.twig_has p c).mp (hcs _ (List.mem_map_of_mem hc)) d (h.mem_subtree.mp hdc)
  · intro hcs w hw
    obtain ⟨c, hc, rfl⟩ := List.mem_map.mp hw
    exact (h.twig_has p c).mpr fun d hd => hcs d (List.mem_flatMap.mpr ⟨c, hc, h.mem_subtree.mpr hd⟩)

/-- What was in a child list has not been there twice. -/
theorem children_cut {p x : NodeId} {before after : List NodeId} (hs : t.children p = before ++ x :: after) :
    x ∉ before ∧ x ∉ after := by
  have hnd := h.distinct p
  rw [hs, List.nodup_middle, List.nodup_cons, List.mem_append, not_or] at hnd
  exact hnd.1

end WellFormed

/-! ## Kinds and children after edits of links -/

theorem kind_insertAllAfter (t : Tree) (anchor : NodeId) (ids : List NodeId) (x : NodeId) :
    (t.insertAllAfter anchor ids).kind x = t.kind x := by
  induction ids generalizing t anchor with
  | nil => rfl
  | cons y ids ih =>
    rw [insertAllAfter, ih]
    unfold insertAfter insertBeside
    split
    · rfl
    · split
      · rfl
      · simp only
        split
        · rw [kind_mapChildren, kind_setParent, kind_detach]
        · exact kind_detach t y x

theorem kind_detachAll (t : Tree) (ids : List NodeId) (x : NodeId) : (t.detachAll ids).kind x = t.kind x := by
  induction ids generalizing t with
  | nil => rfl
  | cons y ids ih => rw [detachAll, List.foldl_cons, ← detachAll, ih, kind_detach]

theorem kind_setAttribute_of_ne {t : Tree} {id x : NodeId} (hx : x ≠ id) (key value : String) :
    (t.setAttribute id key value).kind x = t.kind x := by
  unfold setAttribute
  split
  · rw [kind_setKind, if_neg fun (hc : x = id ∧ _) => hx hc.1]
  · rfl

theorem name?_setAttribute (t : Tree) (id : NodeId) (key value : String) (x : NodeId) :
    (t.setAttribute id key value).name? x = t.name? x := by
  by_cases hx : x = id
  · subst hx
    unfold setAttribute
    split
    · next name attributes hk =>
      rw [name?, name?, kind_setKind, hk]
      by_cases hx : x < t.size
      · rw [if_pos ⟨rfl, hx⟩]
      · rw [if_neg fun hc => hx hc.2]
    · rfl
  · exact name?_congr (kind_setAttribute_of_ne hx key value)

theorem lookup_put (key value : String) (attributes : List (String × String)) :
    (setAttribute.put key value attributes).lookup key = some value := by
  induction attributes with
  | nil => rw [setAttribute.put, List.lookup_cons_self]
  | cons a attributes ih =>
    obtain ⟨k, v⟩ := a
    rw [setAttribute.put]
    split
    · next he => rw [he, List.lookup_cons_self]
    · next hne => rw [List.lookup_cons, beq_false_of_ne (Ne.symm hne), ih]

theorem insertAfter_mem {anchor x : NodeId} {before after : List NodeId} (hb : anchor ∉ before) :
    Siblings.insertAfter anchor x (before ++ anchor :: after) = before ++ anchor :: x :: after := by
  induction before with
  | nil => simp [Siblings.insertAfter]
  | cons b before ih =>
    rw [List.mem_cons, not_or] at hb
    rw [List.cons_append, Siblings.insertAfter, if_neg (Ne.symm hb.1), ih hb.2]
    rfl

theorem filter_ne_self {x : NodeId} {l : List NodeId} (hx : x ∉ l) : l.filter (· != x) = l := by
  refine List.filter_eq_self.mpr fun y hy => ?_
  simp only [bne_iff_ne]
  exact fun he => hx (he ▸ hy)

namespace WellFormed

variable {t : Tree} (h : t.WellFormed)

include h

theorem detachAll (ids : List NodeId) : (t.detachAll ids).WellFormed := by
  induction ids generalizing t with
  | nil => exact h
  | cons x ids ih => exact ih (h.detach x)

theorem children_detachAll (ids : List NodeId) (q : NodeId) :
    (t.detachAll ids).children q = (t.children q).filter (· ∉ ids) := by
  induction ids generalizing t with
  | nil =>
    show t.children q = _
    simp
  | cons x ids ih =>
    rw [Tree.detachAll, List.foldl_cons, ← Tree.detachAll, ih (h.detach x), h.children_detach, List.filter_filter]
    refine List.filter_congr fun y _ => ?_
    by_cases hx : y = x <;> simp [hx]

theorem insertAllAfter {anchor : NodeId} {ids : List NodeId} (hi : Insertable t anchor ids) :
    (t.insertAllAfter anchor ids).WellFormed :=
  ((fenced_zero h).insertAllAfter (fun _ _ => Nat.zero_le _) (fun _ _ => Nat.zero_le _) hi).wellFormed

/-- Nodes put behind a child stand there in their order, and nowhere else. -/
theorem children_insertAllAfter {anchor p : NodeId} {ids before after : List NodeId} (hi : Insertable t anchor ids)
    (hs : t.children p = before ++ anchor :: after) (hnd : ids.Nodup) (hout : ∀ x ∈ ids, x ∉ t.children p) (q : NodeId) :
    (t.insertAllAfter anchor ids).children q =
      if q = p then before ++ anchor :: ids ++ after else (t.children q).filter (· ∉ ids) := by
  induction ids generalizing t anchor before with
  | nil =>
    show t.children q = _
    split
    · next he => rw [he, hs]; simp
    · simp
  | cons x ids ih =>
    have hp : t.parent anchor = some p := h.parent_of_mem (by rw [hs]; simp)
    have hne : anchor ≠ x := fun he => hout x List.mem_cons_self (by rw [hs, he]; simp)
    have hm := hi.head.movable h hp
    have hcut := h.children_cut hs
    rw [List.nodup_cons] at hnd
    have hone : ∀ r, (t.insertAfter anchor x).children r =
        if r = p then before ++ anchor :: x :: after else (t.children r).filter (· != x) := by
      intro r
      rw [Tree.insertAfter, h.insertBeside_eq _ hne hp, children_move hm h]
      split
      · rw [filter_ne_self (hout x List.mem_cons_self), hs, insertAfter_mem hcut.1]
      · rfl
    have hw : (t.insertAfter anchor x).WellFormed :=
      ((fenced_zero h).insertAfter (fun _ _ => Nat.zero_le _) (Nat.zero_le x) hi.head).wellFormed
    have hp' : (t.insertAfter anchor x).children p = (before ++ [anchor]) ++ x :: after := by
      rw [hone, if_pos rfl]; simp
    have hout' : ∀ y ∈ ids, y ∉ (t.insertAfter anchor x).children p := by
      intro y hy hmem
      have hold := hout y (List.mem_cons_of_mem x hy)
      rw [hone, if_pos rfl] at hmem
      rw [hs] at hold
      simp only [List.mem_append, List.mem_cons, not_or] at hold hmem
      rcases hmem with hmem | hmem | hmem | hmem
      · exact hold.1 hmem
      · exact hold.2.1 hmem
      · exact hnd.1 (hmem ▸ hy)
      · exact hold.2.2 hmem
    rw [Tree.insertAllAfter, ih hw (hi.tail h) hp' hnd.2 hout']
    split
    · simp
    · next hq =>
      rw [hone, if_neg hq, List.filter_filter]
      refine List.filter_congr fun y _ => ?_
      by_cases hx : y = x <;> simp [hx]

theorem createBelow {p : NodeId} (hp : Hosts t p) (k : Kind) (s : Span) :
    ((t.create k s).2.appendChild p t.size).WellFormed :=
  ((fenced_zero h).createBelow (Nat.zero_le p) hp k s).wellFormed

theorem children_createBelow {p : NodeId} (hp : Hosts t p) (k : Kind) (s : Span) (q : NodeId) :
    ((t.create k s).2.appendChild p t.size).children q = if q = p then t.children p ++ [t.size] else t.children q := by
  have hnew : ∀ q, t.size ∉ t.children q := fun q hm => Nat.lt_irrefl _ (h.lt_size_of_mem hm)
  have hw : (t.create k s).2.WellFormed := (sameLinks_create t k s).wellFormed h
  rw [appendChild_eq, children_move (h.movable_created k s hp.lt_size hp.inner) hw, children_create, children_create,
    filter_ne_self (hnew p), filter_ne_self (hnew q)]

/-- A node without a parent is in no child list. -/
theorem not_mem_children {x : NodeId} (hx : t.parent x = none) (q : NodeId) : x ∉ t.children q := fun hm => by
  rw [h.parent_of_mem hm] at hx
  cases hx

end WellFormed

/-! ## Edits of some child lists -/

/-- Of the nodes there were, none has another kind, and only some have other children. -/
structure Relists (P : NodeId → Prop) (t u : Tree) : Prop where
  wellFormed : u.WellFormed
  grows : t.size ≤ u.size
  kind : ∀ x, x < t.size → u.kind x = t.kind x
  children : ∀ x, x < t.size → ¬ P x → u.children x = t.children x

namespace Relists

variable {P Q : NodeId → Prop} {t u v : Tree}

theorem refl (h : t.WellFormed) : Relists P t t := ⟨h, Nat.le_refl _, fun _ _ => rfl, fun _ _ _ => rfl⟩

/-- The second edits may be of other nodes too, as long as these were not there before. -/
theorem trans_of (h : Relists P t u) (h' : Relists Q u v) (hQ : ∀ x < t.size, Q x → P x) : Relists P t v where
  wellFormed := h'.wellFormed
  grows := Nat.le_trans h.grows h'.grows
  kind x hx := (h'.kind x (Nat.lt_of_lt_of_le hx h.grows)).trans (h.kind x hx)
  children x hx hP := (h'.children x (Nat.lt_of_lt_of_le hx h.grows) fun hq => hP (hQ x hx hq)).trans (h.children x hx hP)

theorem trans (h : Relists P t u) (h' : Relists P u v) : Relists P t v := h.trans_of h' fun _ _ => id

theorem mono (h : Relists P t u) (hPQ : ∀ x, x < t.size → P x → Q x) : Relists Q t u where
  wellFormed := h.wellFormed
  grows := h.grows
  kind := h.kind
  children x hx hQ := h.children x hx fun hP => hQ (hPQ x hx hP)

theorem of_beyond (h : Beyond t.size t u) : Relists P t u where
  wellFormed := h.wellFormed
  grows := h.grows
  kind _ hx := h.kind_eq hx
  children _ hx _ := h.children_eq hx

theorem lt_size_of_within {a d : NodeId} (ha : a < t.size) (hd : t.Within a d) : d < t.size := by
  by_cases he : d = a
  · exact he ▸ ha
  · exact Tree.lt_size_of_within hd he

/-- A node looks the same as long as no node within it has other children. -/
theorem twig (h : Relists P t u) (ht : t.WellFormed) {a : NodeId} (ha : a < t.size)
    (hP : ∀ d, t.Within a d → ¬ P d) : u.twig a = t.twig a :=
  twig_congr ht h.wellFormed fun d hd => ⟨h.kind d (lt_size_of_within ha hd), h.children d (lt_size_of_within ha hd) (hP d hd)⟩

theorem twigs (h : Relists P t u) (ht : t.WellFormed) {as : List NodeId}
    (hP : ∀ a ∈ as, a < t.size ∧ ∀ d, t.Within a d → ¬ P d) : as.map u.twig = as.map t.twig :=
  List.map_congr_left fun a ha => h.twig ht (hP a ha).1 (hP a ha).2

/-- The children of the one node whose child list changes look the same. -/
theorem twigs_children {p : NodeId} (h : Relists (· = p) t u) (ht : t.WellFormed) {cs : List NodeId}
    (hcs : ∀ c ∈ cs, c ∈ t.children p) : cs.map u.twig = cs.map t.twig :=
  h.twigs ht fun c hc => ⟨ht.lt_size_of_mem (hcs c hc), fun _ hd he =>
    ht.not_within_of_parent (ht.parent_of_mem (hcs c hc)) (he ▸ hd)⟩

/-- The place of `p` is unchanged when the nodes with a new child list are below it. -/
theorem within (h : Relists P t u) (ht : t.WellFormed) {a p : NodeId} (hP : ∀ d, P d → t.Within p d) (hp : t.Within a p) :
    u.Within a p := by
  -- down the path to `p`: none of the nodes above `p` is below it
  have hdown : ∀ q, t.Within a q → t.Within q p → u.Within a q := by
    intro q hq
    induction hq with
    | refl => exact fun _ => within_refl u a
    | @tail r q hr hq ih =>
      intro hqp
      have hout : ¬ P r := fun hr => ht.not_within_of_parent hq (within_trans hqp (hP r hr))
      have hmem := ht.mem_of_parent hq
      rw [← h.children r (ht.parent_lt_size hq) hout] at hmem
      exact within_parent (ih (within_trans (within_of_parent hq) hqp)) (h.wellFormed.parent_of_mem hmem)
  exact hdown p hp (within_refl t p)

end Relists

/-- Nodes that stand nowhere, none of them above `p`. -/
structure Spare (t : Tree) (p : NodeId) (ids : List NodeId) : Prop where
  nodup : ids.Nodup
  each : ∀ x ∈ ids, x ≠ root ∧ x < t.size ∧ t.parent x = none ∧ ¬ t.Within x p

theorem Spare.insertable {t : Tree} {anchor p : NodeId} {ids : List NodeId} (hs : Spare t p ids)
    (hp : t.parent anchor = some p) : Insertable t anchor ids where
  ne_root x hx := (hs.each x hx).1
  lt_size x hx := (hs.each x hx).2.1
  apart y hy q hq x hx := by
    rcases List.mem_cons.mp hy with rfl | hy
    · rw [hp] at hq
      cases hq
      exact (hs.each x hx).2.2.2
    · rw [(hs.each y hy).2.2.1] at hq
      cases hq

/-- Spare nodes put behind a child change no other child list. -/
theorem Spare.insert {t : Tree} (h : t.WellFormed) {anchor p : NodeId} {ids before after : List NodeId} (hs : Spare t p ids)
    (hc : t.children p = before ++ anchor :: after) : Relists (· = p) t (t.insertAllAfter anchor ids) ∧
      (t.insertAllAfter anchor ids).children p = before ++ anchor :: ids ++ after := by
  have hi := hs.insertable (h.parent_of_mem (by rw [hc]; simp : anchor ∈ t.children p))
  have hnone : ∀ q, ∀ x ∈ ids, x ∉ t.children q := fun q x hx => h.not_mem_children (hs.each x hx).2.2.1 q
  have hchildren := h.children_insertAllAfter hi hc hs.nodup (hnone p)
  refine ⟨⟨h.insertAllAfter hi, ?_, fun x _ => kind_insertAllAfter t anchor ids x, fun x _ hx => ?_⟩, ?_⟩
  · exact ((fenced_zero h).insertAllAfter (fun _ _ => Nat.zero_le _) (fun _ _ => Nat.zero_le _) hi).grows
  · rw [hchildren, if_neg hx, List.filter_eq_self]
    intro y hy
    exact decide_eq_true fun hmem => hnone x y hmem hy
  · rw [hchildren, if_pos rfl]

namespace WellFormed

variable {t : Tree} (h : t.WellFormed)

include h

/-- A node is a child of its parent only. -/
theorem eq_of_mem_children {p q x : NodeId} (hp : x ∈ t.children p) (hq : x ∈ t.children q) : p = q :=
  Option.some.inj ((h.parent_of_mem hp).symm.trans (h.parent_of_mem hq))

theorem filter_children {p q : NodeId} {ids : List NodeId} (hids : ∀ x ∈ ids, x ∈ t.children p) (hne : q ≠ p) :
    (t.children q).filter (· ∉ ids) = t.children q := by
  rw [List.filter_eq_self]
  intro y hy
  exact decide_eq_true fun hmem => hne (h.eq_of_mem_children hy (hids y hmem))

/-- Children that are taken out leave no other gap. -/
theorem relists_detachAll {p : NodeId} {ids : List NodeId} (hids : ∀ x ∈ ids, x ∈ t.children p) :
    Relists (· = p) t (t.detachAll ids) where
  wellFormed := h.detachAll ids
  grows := ((fenced_zero h).detachAll fun x _ => Nat.zero_le x).grows
  kind x _ := kind_detachAll t ids x
  children x _ hx := by rw [h.children_detachAll, h.filter_children hids hx]

theorem filter_cut {p x : NodeId} {before after : List NodeId} (hs : t.children p = before ++ x :: after) :
    (before ++ x :: after).filter (· ∉ [x]) = before ++ after := by
  obtain ⟨hb, ha⟩ := h.children_cut hs
  have hkeep : ∀ {l : List NodeId}, x ∉ l → l.filter (· ∉ [x]) = l := fun hx => by
    rw [List.filter_eq_self]
    intro y hy
    refine decide_eq_true fun hmem => hx ?_
    exact List.mem_singleton.mp hmem ▸ hy
  rw [List.filter_append, List.filter_cons_of_neg (by simp), hkeep hb, hkeep ha]

theorem children_detach_of_mem {p x : NodeId} {before after : List NodeId} (hs : t.children p = before ++ x :: after) :
    (t.detach x).children p = before ++ after := by
  have hall := h.children_detachAll [x] p
  rw [hs, h.filter_cut hs] at hall
  exact hall

/-- The children of a node that is unwrapped stand in its place. -/
theorem unwrap_spec {p x : NodeId} {before after : List NodeId} (hs : t.children p = before ++ x :: after) :
    Relists (fun d => d = p ∨ d = x) t (t.unwrap x) ∧ (t.unwrap x).children p = before ++ t.children x ++ after := by
  have hx := h.parent_of_mem (by rw [hs]; simp : x ∈ t.children p)
  have hne : x ≠ p := fun he => h.not_within_of_parent hx (he ▸ within_refl t x)
  have hout : ∀ y ∈ t.children x, y ∉ t.children p := fun y hy hyp => hne (h.eq_of_mem_children hy hyp)
  have hi := h.insertable_children x
  have hw := h.insertAllAfter hi
  have hch := h.children_insertAllAfter hi hs (h.distinct x) hout
  have hcp : (t.insertAllAfter x (t.children x)).children p = before ++ x :: (t.children x ++ after) := by
    rw [hch, if_pos rfl]; simp
  have hxp : x ∈ (t.insertAllAfter x (t.children x)).children p := by rw [hcp]; simp
  have hone : ∀ y ∈ [x], y ∈ (t.insertAllAfter x (t.children x)).children p := fun y hy => by
    rw [List.mem_singleton.mp hy]
    exact hxp
  have hgone := hw.relists_detachAll hone
  refine ⟨⟨hgone.wellFormed, ?_, fun y hy => ?_, fun y hy hP => ?_⟩, ?_⟩
  · exact ((fenced_zero h).unwrap (Nat.zero_le x)).grows
  · rw [unwrap, kind_detach, kind_insertAllAfter]
  · rw [not_or] at hP
    have hsame := hgone.children y (Nat.lt_of_lt_of_le hy
      ((fenced_zero h).insertAllAfter (fun _ _ => Nat.zero_le _) (fun _ _ => Nat.zero_le _) hi).grows) hP.1
    rw [hch, if_neg hP.1, h.filter_children (fun _ hc => hc) hP.2] at hsame
    exact hsame
  · rw [unwrap, hw.children_detach_of_mem hcp, List.append_assoc]

end WellFormed

end Tree

end MailMerge
