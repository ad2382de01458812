/-
  MailMerge.Proofs.Tree.Fence — edits that stay in a part of the store.

  An edit works on some nodes `S`, which it may cut off, move and change, and on some
  nodes `R`, which may also get and lose children. A zone is such a pair that fits the
  links: what is below a node of `S` is in `S`, what is above one is in `R`, and new nodes
  are in `S`. The nodes from `n` on are a zone if no link joins one of them with an
  earlier node (`Fenced`); at the size of the store this is always so. Fenced at 0 means
  well formed.

  Proved: each edit applied to nodes of a zone leaves a zone and a well-formed tree, and
  does not touch what is outside (`Edited`). So it is known of any number of edits.
-/

import MailMerge.Proofs.Tree.Links

namespace MailMerge.Tree

structure Zone (S R : NodeId → Prop) (t : Tree) : Prop where
  wellFormed : t.WellFormed
  fresh : ∀ x, t.size ≤ x → S x
  lower : ∀ p c, t.parent c = some p → S p → S c
  upper : ∀ p c, t.parent c = some p → S c → R p
  sub : ∀ x, S x → R x

/-- `u` comes from `t` by edits of a zone: nothing outside `R` is touched, nothing outside
    `S` is moved or changed, and what was an element still is one. -/
structure Edited (S R : NodeId → Prop) (t u : Tree) : Prop where
  zone : Zone S R u
  grows : t.size ≤ u.size
  node : ∀ x, ¬ R x → u.node x = t.node x
  parent : ∀ x, ¬ S x → u.parent x = t.parent x
  kind : ∀ x, ¬ S x → u.kind x = t.kind x
  element : ∀ x, t.isElement x = true → u.isElement x = true

variable {S R : NodeId → Prop} {t u v : Tree}

theorem Edited.refl (h : Zone S R t) : Edited S R t t :=
  ⟨h, Nat.le_refl _, fun _ _ => rfl, fun _ _ => rfl, fun _ _ => rfl, fun _ => id⟩

theorem Edited.trans (h : Edited S R t u) (h' : Edited S R u v) : Edited S R t v where
  zone := h'.zone
  grows := Nat.le_trans h.grows h'.grows
  node x hx := (h'.node x hx).trans (h.node x hx)
  parent x hx := (h'.parent x hx).trans (h.parent x hx)
  kind x hx := (h'.kind x hx).trans (h.kind x hx)
  element x hx := h'.element x (h.element x hx)

theorem Edited.wellFormed (h : Edited S R t u) : u.WellFormed := h.zone.wellFormed

/-- Above what is not in the zone nothing was moved. -/
theorem Edited.within_iff_of_not_mem (h : Edited S R t u) (ht : Zone S R t) {a d : NodeId} (hd : ¬ S d) :
    u.Within a d ↔ t.Within a d := by
  constructor
  · intro hw
    induction hw with
    | refl => exact within_refl t a
    | tail _ hc ih =>
      refine within_parent (ih fun hp => hd (h.zone.lower _ _ hc hp)) ?_
      rw [← h.parent _ hd]
      exact hc
  · intro hw
    induction hw with
    | refl => exact within_refl u a
    | tail _ hc ih =>
      refine within_parent (ih fun hp => hd (ht.lower _ _ hc hp)) ?_
      rw [h.parent _ hd]
      exact hc

/-- Below what no edit touches nothing is new. -/
theorem Edited.within_of_untouched (h : Edited S R t u) (ht : t.WellFormed) {a d : NodeId}
    (ha : ∀ y, t.Within a y → ¬ R y) (hw : u.Within a d) : t.Within a d := by
  induction hw with
  | refl => exact within_refl t a
  | @tail p c _ hc ih =>
    have hmem := h.wellFormed.mem_of_parent hc
    rw [Tree.children, h.node p (ha p ih)] at hmem
    exact within_parent ih (ht.parent_of_mem hmem)

/-- Edits of a smaller zone are edits of a larger one. -/
theorem Edited.mono {S' R' : NodeId → Prop} (h : Edited S' R' t u) (ht : Zone S R t) (hS : ∀ x, S' x → S x)
    (hR : ∀ x, R' x → R x) : Edited S R t u where
  zone := by
    refine ⟨h.wellFormed, fun x hx => ht.fresh x (Nat.le_trans h.grows hx), fun p c hc hp => ?_, fun p c hc hp => ?_, ht.sub⟩
    · by_cases hc' : S' c
      · exact hS c hc'
      · exact ht.lower p c (h.parent c hc' ▸ hc) hp
    · by_cases hc' : S' c
      · exact hR p (h.zone.upper p c hc hc')
      · exact ht.upper p c (h.parent c hc' ▸ hc) hp
  grows := h.grows
  node x hx := h.node x fun hR' => hx (hR x hR')
  parent x hx := h.parent x fun hS' => hx (hS x hS')
  kind x hx := h.kind x fun hS' => hx (hS x hS')
  element := h.element

/-- Nodes that no link joins with the others. -/
structure Aside (D : NodeId → Prop) (t : Tree) : Prop where
  old : ∀ x, D x → x < t.size
  lower : ∀ p c, t.parent c = some p → D p → D c
  upper : ∀ p c, t.parent c = some p → D c → D p

theorem Aside.within {D : NodeId → Prop} (h : Aside D t) {a d : NodeId} (ha : D a) (hw : t.Within a d) : D d := by
  induction hw with
  | refl => exact ha
  | tail _ hc ih => exact h.lower _ _ hc ih

/-- What is aside can be left out of a zone. -/
theorem Zone.without {D : NodeId → Prop} (h : Zone S R t) (hD : Aside D t) :
    Zone (fun x => S x ∧ ¬ D x) (fun x => R x ∧ ¬ D x) t where
  wellFormed := h.wellFormed
  fresh x hx := ⟨h.fresh x hx, fun hd => Nat.not_lt_of_le hx (hD.old x hd)⟩
  lower p c hc hp := ⟨h.lower p c hc hp.1, fun hd => hp.2 (hD.upper p c hc hd)⟩
  upper p c hc hS := ⟨h.upper p c hc hS.1, fun hd => hS.2 (hD.lower p c hc hd)⟩
  sub x hx := ⟨h.sub x hx.1, hx.2⟩

/-- It stays aside when the rest is edited. -/
theorem Edited.aside {D : NodeId → Prop} (h : Edited (fun x => S x ∧ ¬ D x) (fun x => R x ∧ ¬ D x) t u)
    (ht : t.WellFormed) (hD : Aside D t) : Aside D u where
  old x hx := Nat.lt_of_lt_of_le (hD.old x hx) h.grows
  lower p c hc hp := by
    have hmem := h.wellFormed.mem_of_parent hc
    rw [children, h.node p fun hR => hR.2 hp] at hmem
    exact hD.lower p c (ht.parent_of_mem hmem) hp
  upper p c hc hd := by
    rw [h.parent c fun hS => hS.2 hd] at hc
    exact hD.upper p c hc hd

namespace Zone

variable (h : Zone S R t)

include h

theorem within {a d : NodeId} (ha : S a) (hw : t.Within a d) : S d := by
  induction hw with
  | refl => exact ha
  | tail _ hc ih => exact h.lower _ _ hc ih

/-- Where all of the zone may be moved, what is above a node of it is in it. -/
theorem above (hRS : ∀ x, R x → S x) {a d : NodeId} (hw : t.Within a d) (hd : S d) : S a := by
  induction hw with
  | refl => exact hd
  | tail _ hc ih => exact ih (hRS _ (h.upper _ _ hc hd))

theorem mem_children {p c : NodeId} (hp : S p) (hc : c ∈ t.children p) : S c := h.lower p c (h.wellFormed.parent_of_mem hc) hp

/-! ## Single edits -/

theorem sameLinks (hs : SameLinks t u) (hnode : ∀ x, ¬ R x → u.node x = t.node x)
    (hkind : ∀ x, ¬ S x → u.kind x = t.kind x) : Edited S R t u where
  zone := ⟨hs.wellFormed h.wellFormed, fun x hx => h.fresh x (Nat.le_trans hs.size hx),
    fun p c hc => h.lower p c (hs.parent c ▸ hc), fun p c hc => h.upper p c (hs.parent c ▸ hc), h.sub⟩
  grows := hs.size
  node := hnode
  parent x _ := hs.parent x
  kind := hkind
  element := hs.element

theorem create (k : Kind) (s : Span) : Edited S R t (t.create k s).2 := by
  have hnew : ∀ x, ¬ S x → x ≠ t.size := fun x hx he => hx (h.fresh x (Nat.le_of_eq he.symm))
  refine h.sameLinks (sameLinks_create t k s) (fun x hx => ?_) (fun x hx => ?_)
  · rw [node_create, if_neg (hnew x fun hS => hx (h.sub x hS))]
  · rw [kind_create, if_neg (hnew x hx)]

theorem setKind {id : NodeId} {k : Kind} (hid : S id) (hk : t.isElement id = true → ∃ n as, k = .element n as) :
    Edited S R t (t.setKind id k) := by
  refine h.sameLinks (sameLinks_setKind hk) (fun x hx => ?_) (fun x hx => ?_)
  · rw [Tree.setKind, node_update, if_neg]
    rintro ⟨rfl, -⟩
    exact hx (h.sub x hid)
  · rw [kind_setKind, if_neg]
    rintro ⟨rfl, -⟩
    exact hx hid

theorem setSpan {id : NodeId} (hid : S id) (s : Span) : Edited S R t (t.setSpan id s) := by
  refine h.sameLinks (sameLinks_setSpan t id s) (fun x hx => ?_) (fun x _ => kind_setSpan t id x s)
  rw [Tree.setSpan, node_update, if_neg]
  rintro ⟨rfl, -⟩
  exact hx (h.sub x hid)

theorem setAttribute {id : NodeId} (hid : S id) (key value : String) : Edited S R t (t.setAttribute id key value) := by
  unfold Tree.setAttribute
  split
  · exact h.setKind hid fun _ => ⟨_, _, rfl⟩
  · exact .refl h

theorem detach {x : NodeId} (hx : S x) : Edited S R t (t.detach x) where
  zone := by
    have hold : ∀ {p c}, (t.detach x).parent c = some p → t.parent c = some p := by
      intro p c hc
      rw [parent_detach] at hc
      split at hc
      · cases hc
      · exact hc
    exact ⟨h.wellFormed.detach x, fun y hy => h.fresh y (by rwa [size_detach] at hy), fun p c hc => h.lower p c (hold hc),
      fun p c hc => h.upper p c (hold hc), h.sub⟩
  grows := by rw [size_detach]
  node y hy := by
    unfold Tree.detach
    cases hp : t.parent x with
    | none => rfl
    | some p =>
      have hyp : y ≠ p := fun he => hy (he ▸ h.upper p x hp hx)
      have hyx : y ≠ x := fun he => hy (he ▸ h.sub x hx)
      simp only [mapChildren, setParent, node_update, hyp, hyx, false_and, if_false]
  parent y hy := parent_detach_of_ne t fun he => hy (he ▸ hx)
  kind y _ := kind_detach t x y
  element y hy := by rw [isElement_congr (kind_detach t x y)]; exact hy

theorem move {place : List NodeId → List NodeId} {p x : NodeId} (hp : R p) (hx : S x) (hm : Movable t p x)
    (hadd : Adds x ((t.children p).filter (· != x)) (place ((t.children p).filter (· != x)))) :
    Edited S R t (t.move place p x) where
  zone := by
    refine ⟨h.wellFormed.move hm hadd, fun y hy => h.fresh y (by rwa [size_move] at hy), fun q c hc hq => ?_,
      fun q c hc hS => ?_, h.sub⟩
    · rw [parent_move hm] at hc
      split at hc
      · next he => exact he ▸ hx
      · exact h.lower q c hc hq
    · rw [parent_move hm] at hc
      split at hc
      · cases hc; exact hp
      · exact h.upper q c hc hS
  grows := by rw [size_move]
  node y hy := by
    have hyp : y ≠ p := fun he => hy (he ▸ hp)
    have hyx : y ≠ x := fun he => hy (he ▸ h.sub x hx)
    refine Eq.trans ?_ ((h.detach hx).node y hy)
    simp only [Tree.move, attach, mapChildren, setParent, node_update, hyp, hyx, false_and, if_false]
  parent y hy := by
    have hyx : y ≠ x := fun he => hy (he ▸ hx)
    rw [parent_move hm, if_neg hyx]
  kind y _ := kind_move place t p x y
  element y hy := by rw [isElement_congr (kind_move place t p x y)]; exact hy

theorem appendChild {p x : NodeId} (hp : R p) (hx : S x) (hm : Movable t p x) : Edited S R t (t.appendChild p x) :=
  h.move hp hx hm (adds_append x _)

theorem prependChild {p x : NodeId} (hp : R p) (hx : S x) (hm : Movable t p x) : Edited S R t (t.prependChild p x) :=
  h.move hp hx hm (adds_cons x _)

end Zone

/-- A node may be moved beside another one. -/
structure Joinable (t : Tree) (anchor x : NodeId) : Prop where
  ne_root : x ≠ root
  lt_size : x < t.size
  apart : ∀ p, t.parent anchor = some p → ¬ t.Within x p

theorem Joinable.movable {t : Tree} {anchor x p : NodeId} (hj : Joinable t anchor x) (h : t.WellFormed)
    (hp : t.parent anchor = some p) : Movable t p x :=
  ⟨hj.ne_root, hj.lt_size, h.parent_lt_size hp, h.inner p anchor hp, hj.apart p hp⟩

theorem WellFormed.anchor_stays {t : Tree} (h : t.WellFormed) {anchor x p : NodeId} (hp : t.parent anchor = some p)
    (hne : anchor ≠ x) : anchor ∈ (t.children p).filter (· != x) :=
  List.mem_filter.mpr ⟨h.mem_of_parent hp, bne_iff_ne.mpr hne⟩

namespace Zone

variable (h : Zone S R t)

include h

theorem insertBeside {place : NodeId → NodeId → List NodeId → List NodeId}
    (hplace : ∀ {anchor x l}, anchor ∈ l → Adds x l (place anchor x l)) {anchor x : NodeId}
    (ha : ∀ p, t.parent anchor = some p → R p) (hx : S x) (hj : Joinable t anchor x) :
    Edited S R t (t.insertBeside place anchor x) := by
  by_cases hne : anchor = x
  · subst hne
    rw [insertBeside_self]
    exact .refl h
  · cases hp : t.parent anchor with
    | none => rw [insertBeside_of_parent_none place hp]; exact .refl h
    | some p =>
      rw [h.wellFormed.insertBeside_eq place hne hp]
      exact h.move (ha p hp) hx (hj.movable h.wellFormed hp) (hplace (h.wellFormed.anchor_stays hp hne))

theorem insertAfter {anchor x : NodeId} (ha : ∀ p, t.parent anchor = some p → R p) (hx : S x) (hj : Joinable t anchor x) :
    Edited S R t (t.insertAfter anchor x) := h.insertBeside adds_insertAfter ha hx hj

theorem insertBefore {anchor x : NodeId} (ha : ∀ p, t.parent anchor = some p → R p) (hx : S x) (hj : Joinable t anchor x) :
    Edited S R t (t.insertBefore anchor x) := h.insertBeside adds_insertBefore ha hx hj

theorem detachAll {ids : List NodeId} (hids : ∀ x ∈ ids, S x) : Edited S R t (t.detachAll ids) := by
  induction ids generalizing t with
  | nil => exact .refl h
  | cons x ids ih =>
    have hx := h.detach (hids x List.mem_cons_self)
    exact hx.trans (ih hx.zone fun y hy => hids y (List.mem_cons_of_mem x hy))

end Zone

/-! ## Several nodes at once -/

/-- Nodes may be moved, one after the other, to follow `anchor`. -/
structure Insertable (t : Tree) (anchor : NodeId) (ids : List NodeId) : Prop where
  ne_root : ∀ x ∈ ids, x ≠ root
  lt_size : ∀ x ∈ ids, x < t.size
  apart : ∀ y ∈ anchor :: ids, ∀ p, t.parent y = some p → ∀ x ∈ ids, ¬ t.Within x p

theorem Insertable.head {t : Tree} {anchor x : NodeId} {ids : List NodeId} (hi : Insertable t anchor (x :: ids)) :
    Joinable t anchor x :=
  ⟨hi.ne_root x List.mem_cons_self, hi.lt_size x List.mem_cons_self,
    fun p hp => hi.apart anchor List.mem_cons_self p hp x List.mem_cons_self⟩

/-- After the first node is moved the others may follow it. -/
theorem Insertable.tail {t : Tree} (h : t.WellFormed) {anchor x : NodeId} {ids : List NodeId}
    (hi : Insertable t anchor (x :: ids)) : Insertable (t.insertAfter anchor x) x ids := by
  have hkeep : Insertable t x ids :=
    ⟨fun y hy => hi.ne_root y (List.mem_cons_of_mem x hy), fun y hy => hi.lt_size y (List.mem_cons_of_mem x hy),
      fun y hy p hp z hz => hi.apart y (List.mem_cons_of_mem anchor hy) p hp z (List.mem_cons_of_mem x hz)⟩
  unfold Tree.insertAfter
  by_cases hne : anchor = x
  · subst hne; rw [insertBeside_self]; exact hkeep
  · cases hp : t.parent anchor with
    | none => rw [insertBeside_of_parent_none _ hp]; exact hkeep
    | some p =>
      rw [h.insertBeside_eq _ hne hp]
      have hm := hi.head.movable h hp
      have hadd := adds_insertAfter (x := x) (h.anchor_stays hp hne)
      refine ⟨hkeep.ne_root, fun y hy => by rw [size_move]; exact hkeep.lt_size y hy, fun y hy q hq z hz hw => ?_⟩
      have hzp : ¬ t.Within z p := hi.apart anchor List.mem_cons_self p hp z (List.mem_cons_of_mem x hz)
      have hzq : ¬ t.Within z q := by
        rw [parent_move hm] at hq
        split at hq
        · cases hq; exact hzp
        · exact hkeep.apart y hy q hq z hz
      rcases within_of_move h hm hadd hw with hw | ⟨hw, -⟩
      · exact hzq hw
      · exact hzp hw

theorem Zone.insertAllAfter (h : Zone S R t) {anchor : NodeId} {ids : List NodeId}
    (ha : ∀ p, t.parent anchor = some p → R p) (hids : ∀ x ∈ ids, S x) (hi : Insertable t anchor ids) :
    Edited S R t (t.insertAllAfter anchor ids) := by
  induction ids generalizing t anchor with
  | nil => exact .refl h
  | cons x ids ih =>
    have hx := hids x List.mem_cons_self
    have hone := h.insertAfter ha hx hi.head
    exact hone.trans (ih hone.zone (fun p hp => hone.zone.upper p x hp hx)
      (fun y hy => hids y (List.mem_cons_of_mem x hy)) (hi.tail h.wellFormed))

/-- The children of a node may follow it. -/
theorem WellFormed.insertable_children {t : Tree} (h : t.WellFormed) (id : NodeId) : Insertable t id (t.children id) where
  ne_root x hx he := by
    have hp := h.parent_of_mem hx
    rw [he, h.top] at hp
    cases hp
  lt_size x hx := h.lt_size_of_mem hx
  apart y hy p hp x hx hw := by
    have hxp := h.parent_of_mem hx
    rcases List.mem_cons.mp hy with rfl | hy
    · exact h.not_within_of_parent hxp (within_parent hw hp)
    · have hyp := h.parent_of_mem hy
      rw [hyp] at hp
      cases hp
      exact h.not_within_of_parent hxp hw

theorem Zone.unwrap (h : Zone S R t) {id : NodeId} (hid : S id) : Edited S R t (t.unwrap id) := by
  have hmove := h.insertAllAfter (fun p hp => h.upper p id hp hid) (fun x hx => h.mem_children hid hx)
    (h.wellFormed.insertable_children id)
  exact hmove.trans (hmove.zone.detach hid)

/-! ## New nodes in their place -/

/-- A node just made may stand anywhere. -/
theorem WellFormed.movable_created (h : t.WellFormed) (k : Kind) (s : Span) {p : NodeId} (hp : p < t.size)
    (hin : p = root ∨ t.isElement p = true) : Movable (t.create k s).2 p t.size where
  ne_root := Nat.ne_of_gt h.rooted
  lt_size := by rw [size_create]; exact Nat.lt_succ_self _
  below := by rw [size_create]; exact Nat.lt_succ_of_lt hp
  inner := hin.imp_right ((sameLinks_create t k s).element p)
  apart hw := by
    have hw := (sameLinks_create t k s).within.mp hw
    exact Nat.ne_of_lt hp (h.eq_of_within_childless (children_of_size_le (Nat.le_refl _)) hw)

theorem WellFormed.joinable_created (h : t.WellFormed) (k : Kind) (s : Span) (anchor : NodeId) :
    Joinable (t.create k s).2 anchor t.size where
  ne_root := Nat.ne_of_gt h.rooted
  lt_size := by rw [size_create]; exact Nat.lt_succ_self _
  apart p hp hw := by
    rw [parent_create] at hp
    have hlt := h.parent_lt_size hp
    have hw := (sameLinks_create t k s).within.mp hw
    exact Nat.ne_of_lt hlt (h.eq_of_within_childless (children_of_size_le (Nat.le_refl _)) hw)

/-- A node of the store that may have children. -/
structure Hosts (t : Tree) (id : NodeId) : Prop where
  lt_size : id < t.size
  inner : id = root ∨ t.isElement id = true

theorem hosts_of_isElement {id : NodeId} (h : t.isElement id = true) : Hosts t id := ⟨lt_size_of_isElement h, Or.inr h⟩

theorem Edited.hosts (h : Edited S R t u) {id : NodeId} (hid : Hosts t id) : Hosts u id :=
  ⟨Nat.lt_of_lt_of_le hid.lt_size h.grows, hid.inner.imp_right (h.element id)⟩

/-- A new node as the last child of a node. -/
theorem Zone.createBelow (h : Zone S R t) {p : NodeId} (hR : R p) (hp : Hosts t p) (k : Kind) (s : Span) :
    Edited S R t ((t.create k s).2.appendChild p t.size) := by
  have hnew := h.create k s
  exact hnew.trans (hnew.zone.appendChild hR (h.fresh _ (Nat.le_refl _)) (h.wellFormed.movable_created k s hp.lt_size hp.inner))

theorem WellFormed.parent_createBelow (h : t.WellFormed) {p : NodeId} (hp : Hosts t p) (k : Kind) (s : Span) (x : NodeId) :
    ((t.create k s).2.appendChild p t.size).parent x = if x = t.size then some p else t.parent x := by
  rw [appendChild_eq, parent_move (h.movable_created k s hp.lt_size hp.inner), parent_create]

theorem kind_createBelow (t : Tree) (p : NodeId) (k : Kind) (s : Span) (x : NodeId) :
    ((t.create k s).2.appendChild p t.size).kind x = if x = t.size then k else t.kind x := by
  rw [appendChild_eq, kind_move, kind_create]

/-- What is within some nodes is a zone, with the places that these have. -/
theorem WellFormed.zone_within (h : t.WellFormed) {ids : List NodeId}
    (hsub : ∀ x, (∃ a ∈ ids, t.Within a x) ∨ t.size ≤ x → R x) (hup : ∀ a ∈ ids, ∀ p, t.parent a = some p → R p) :
    Zone (fun x => (∃ a ∈ ids, t.Within a x) ∨ t.size ≤ x) R t where
  wellFormed := h
  fresh _ hx := Or.inr hx
  lower p c hc hp := by
    rcases hp with ⟨a, ha, hw⟩ | hp
    · exact Or.inl ⟨a, ha, within_parent hw hc⟩
    · exact absurd (h.parent_lt_size hc) (Nat.not_lt_of_le hp)
  upper p c hc hx := by
    rcases hx with ⟨a, ha, hw⟩ | hx
    · by_cases he : c = a
      · exact hup a ha p (he ▸ hc)
      · exact hsub p (Or.inl ⟨a, ha, within_parent_of_ne hw he hc⟩)
    · exact absurd (lt_size_of_parent hc) (Nat.not_lt_of_le hx)
  sub := hsub

/-! ## Fences -/

/-- No link joins a node from `n` on with one before. -/
def Fenced (n : Nat) (t : Tree) : Prop := Zone (fun x => n ≤ x) (fun x => n ≤ x) t

/-- `u` comes from `t` by edits of nodes from `n` on. -/
def Beyond (n : Nat) (t u : Tree) : Prop := Edited (fun x => n ≤ x) (fun x => n ≤ x) t u

theorem fenced_zero (h : t.WellFormed) : Fenced 0 t :=
  ⟨h, fun x _ => Nat.zero_le x, fun _ _ _ _ => Nat.zero_le _, fun _ _ _ _ => Nat.zero_le _, fun _ => id⟩

theorem fenced_size (h : t.WellFormed) : Fenced t.size t := by
  refine ⟨h, fun _ => id, fun p c hc hp => ?_, fun p c hc hle => ?_, fun _ => id⟩
  · exact absurd (h.parent_lt_size hc) (Nat.not_lt_of_le hp)
  · exact absurd (lt_size_of_parent hc) (Nat.not_lt_of_le hle)

theorem parent_insertAfter_of_ne (t : Tree) (anchor : NodeId) {node y : NodeId} (hy : y ≠ node) :
    (t.insertAfter anchor node).parent y = t.parent y := by
  unfold insertAfter insertBeside
  split
  · rfl
  · cases t.parent anchor with
    | none => rfl
    | some p =>
      simp only
      split
      · rw [parent_mapChildren, parent_setParent, if_neg fun hc => hy hc.1, parent_detach_of_ne t hy]
      · exact parent_detach_of_ne t hy

/-- Only the nodes that are put somewhere get another parent. -/
theorem parent_insertAllAfter_of_not_mem (t : Tree) (anchor : NodeId) {ids : List NodeId} {y : NodeId} (hy : y ∉ ids) :
    (t.insertAllAfter anchor ids).parent y = t.parent y := by
  induction ids generalizing t anchor with
  | nil => rfl
  | cons node ids ih =>
    rw [List.mem_cons, not_or] at hy
    rw [insertAllAfter, ih _ _ hy.2, parent_insertAfter_of_ne t anchor hy.1]

/-- Nodes moved behind a node get its parent. -/
theorem WellFormed.parent_insertAllAfter {t : Tree} (h : t.WellFormed) {anchor p : NodeId} {ids : List NodeId}
    (hi : Insertable t anchor ids) (hp : t.parent anchor = some p) (y : NodeId) :
    (t.insertAllAfter anchor ids).parent y = if y ∈ ids then some p else t.parent y := by
  induction ids generalizing t anchor with
  | nil => rfl
  | cons x ids ih =>
    have hone : ∀ z, (t.insertAfter anchor x).parent z = if z = x then some p else t.parent z := by
      intro z
      unfold Tree.insertAfter
      by_cases hne : anchor = x
      · subst hne
        rw [insertBeside_self]
        split
        · next he => rw [he, hp]
        · rfl
      · rw [h.insertBeside_eq _ hne hp, parent_move (hi.head.movable h hp)]
    have hw := ((fenced_zero h).insertAfter (fun _ _ => Nat.zero_le _) (Nat.zero_le x) hi.head).wellFormed
    rw [insertAllAfter, ih hw (hi.tail h) ((hone x).trans (if_pos rfl)), hone]
    by_cases hy : y ∈ ids
    · rw [if_pos hy, if_pos (List.mem_cons_of_mem x hy)]
    · rw [if_neg hy]
      by_cases hx : y = x
      · rw [if_pos hx, if_pos (hx ▸ List.mem_cons_self)]
      · rw [if_neg hx, if_neg fun hm => (List.mem_cons.mp hm).elim hx hy]

/-- The children of a node go to its place; where there is no place they stay below it. -/
theorem WellFormed.parent_unwrap {t : Tree} (h : t.WellFormed) (id x : NodeId) :
    (t.unwrap id).parent x = if x = id then none
      else if t.parent x = some id then some ((t.parent id).getD id) else t.parent x := by
  rw [Tree.unwrap, parent_detach]
  by_cases hid : x = id
  · rw [if_pos hid, if_pos hid]
  rw [if_neg hid, if_neg hid]
  have hmem : x ∈ t.children id ↔ t.parent x = some id := h.linked id x
  cases hp : t.parent id with
  | some p =>
    rw [h.parent_insertAllAfter (h.insertable_children id) hp]
    simp only [hmem, Option.getD_some]
  | none =>
    -- the first child is not moved, and the others follow it where they are
    have hi := h.insertable_children id
    have hsame : (t.insertAllAfter id (t.children id)).parent x = t.parent x := by
      cases hc : t.children id with
      | nil => rfl
      | cons c cs =>
        rw [hc] at hi
        have hfirst : t.insertAfter id c = t := insertBeside_of_parent_none _ hp c
        have hcp : t.parent c = some id := h.parent_of_mem (by rw [hc]; exact List.mem_cons_self)
        have hrest := hi.tail h
        rw [hfirst] at hrest
        rw [insertAllAfter, hfirst, h.parent_insertAllAfter hrest hcp]
        split
        · next hx => rw [(h.linked id x).mp (by rw [hc]; exact List.mem_cons_of_mem c hx)]
        · rfl
    rw [hsame]
    split
    · next hx => rw [hx]; rfl
    · rfl

section fences

variable {n : Nat}

theorem Fenced.lt_of_within (h : Fenced n t) {a d : NodeId} (ha : a < n) (hw : t.Within a d) : d < n := by
  induction hw with
  | refl => exact ha
  | tail _ hc ih => exact Nat.lt_of_not_le fun hle => Nat.not_lt_of_le (h.upper _ _ hc hle) ih

theorem Beyond.same (h : Beyond n t u) {x : NodeId} (hx : x < n) : u.node x = t.node x := h.node x (Nat.not_le_of_lt hx)

theorem Beyond.parent_eq (h : Beyond n t u) {x : NodeId} (hx : x < n) : u.parent x = t.parent x := by
  rw [Tree.parent, h.same hx]; rfl

theorem Beyond.children_eq (h : Beyond n t u) {x : NodeId} (hx : x < n) : u.children x = t.children x := by
  rw [Tree.children, h.same hx]; rfl

theorem Beyond.kind_eq (h : Beyond n t u) {x : NodeId} (hx : x < n) : u.kind x = t.kind x := by
  rw [Tree.kind, h.same hx]; rfl

/-- Edits of new nodes are edits of any zone. -/
theorem Beyond.edited (h : Beyond n t u) (ht : Zone S R t) (hn : ∀ x, n ≤ x → S x) : Edited S R t u where
  zone := by
    refine ⟨h.wellFormed, fun x hx => ht.fresh x (Nat.le_trans h.grows hx), fun p c hc hp => ?_, fun p c hc hS => ?_, ht.sub⟩
    · by_cases hcn : n ≤ c
      · exact hn c hcn
      · rw [h.parent_eq (Nat.lt_of_not_le hcn)] at hc
        exact ht.lower p c hc hp
    · by_cases hcn : n ≤ c
      · exact ht.sub p (hn p (h.zone.upper p c hc hcn))
      · rw [h.parent_eq (Nat.lt_of_not_le hcn)] at hc
        exact ht.upper p c hc hS
  grows := h.grows
  node x hx := h.same (Nat.lt_of_not_le fun hle => hx (ht.sub x (hn x hle)))
  parent x hx := h.parent x fun hle => hx (hn x hle)
  kind x hx := h.kind x fun hle => hx (hn x hle)
  element := h.element

theorem Beyond.of_le {m : Nat} (h : Beyond m t u) (ht : Fenced n t) (hnm : n ≤ m) : Beyond n t u :=
  h.edited ht fun _ hx => Nat.le_trans hnm hx

end fences

end MailMerge.Tree
