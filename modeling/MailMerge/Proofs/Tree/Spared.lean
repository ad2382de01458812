/-
  MailMerge.Proofs.Tree.Spared — nodes that edits leave as they are.

  Nodes that are copied again and again must not be changed in between. Where they stand does
  not matter for the copies: they may be taken out of the tree, with all that is above them.
  What matters is what is read of them, and that nothing joins or leaves what is below them
  (`Spares`).

  Proved: an edit of a zone spares what is outside (`Edited.spares`), and so do edits of single
  links that do not lead to a node to be spared (`spares_detachAll`, `spares_insertAllAfter`).
-/

import MailMerge.Proofs.Tree.Renamed

namespace MailMerge.Tree

/-- The nodes of `D` are read in `u` as in `t`, and have the same children. -/
structure Spares (D : NodeId → Prop) (t u : Tree) : Prop where
  reads : ∀ x, D x → t.Reads x u x
  children : ∀ x, D x → u.children x = t.children x

variable {D S R : NodeId → Prop} {t u v : Tree} {ids : List NodeId}

theorem reads_of_kind {x y : NodeId} (h : u.kind y = t.kind x) : t.Reads x u y := ⟨name?_congr h, fun _ _ => h⟩

theorem Spares.refl (D : NodeId → Prop) (t : Tree) : Spares D t t := ⟨fun _ _ => reads_of_kind rfl, fun _ _ => rfl⟩

theorem Spares.trans (h : Spares D t u) (h' : Spares D u v) : Spares D t v where
  reads x hx := (h.reads x hx).trans (h'.reads x hx)
  children x hx := (h'.children x hx).trans (h.children x hx)

/-- What stands under nodes that are spared keeps its names. -/
theorem renames_id_iff : Renames t ids id u ↔ Spares (t.Under ids) t u := by
  constructor
  · exact fun h => ⟨h.reads, fun x hx => (h.children x hx).trans (List.map_id _)⟩
  · exact fun h => ⟨h.reads, fun x hx => (h.children x hx).trans (List.map_id _).symm, fun _ _ _ _ => id⟩

theorem Spares.parent_iff (h : Spares D t u) (ht : t.WellFormed) (hu : u.WellFormed) {x p : NodeId} (hp : D p) :
    u.parent x = some p ↔ t.parent x = some p := by
  rw [← hu.linked, ← ht.linked, h.children p hp]

/-! ## Edits -/

theorem Edited.spares (h : Edited S R t u) (hD : ∀ x, D x → ¬ R x) : Spares D t u where
  reads x hx := reads_of_kind (congrArg Node.kind (h.node x (hD x hx)))
  children x hx := congrArg Node.children (h.node x (hD x hx))

theorem Beyond.spares {n : Nat} (h : Beyond n t u) (hD : ∀ x, D x → x < n) : Spares D t u :=
  Edited.spares h fun x hx => Nat.not_le_of_lt (hD x hx)

theorem children_detach_of_not_mem (t : Tree) {x q : NodeId} (hx : x ∉ t.children q) : (t.detach x).children q = t.children q := by
  unfold detach
  cases t.parent x with
  | none => rfl
  | some p =>
    simp only [children_setParent, children_mapChildren]
    split
    · exact List.filter_eq_self.mpr fun y hy => bne_iff_ne.mpr fun he => hx (he ▸ hy)
    · rfl

/-- Nodes may leave that are not right below one to be spared. -/
theorem spares_detachAll (hids : ∀ x ∈ ids, ∀ p, D p → x ∉ t.children p) : Spares D t (t.detachAll ids) := by
  refine ⟨fun x _ => reads_of_kind (kind_detachAll t ids x), fun p hp => ?_⟩
  induction ids generalizing t with
  | nil => rfl
  | cons x ids ih =>
    have hone : ∀ q, D q → (t.detach x).children q = t.children q := fun q hq =>
      children_detach_of_not_mem t (hids x List.mem_cons_self q hq)
    refine (ih fun y hy q hq => ?_).trans (hone p hp)
    rw [hone q hq]
    exact hids y (List.mem_cons_of_mem x hy) q hq

theorem children_insertBeside_of_ne (place : NodeId → NodeId → List NodeId → List NodeId) {anchor x q : NodeId}
    (ha : t.parent anchor ≠ some q) (hx : x ∉ t.children q) : (insertBeside place t anchor x).children q = t.children q := by
  unfold insertBeside
  split
  · rfl
  · cases hp : t.parent anchor with
    | none => rfl
    | some p =>
      have hne : q ≠ p := fun he => ha (he ▸ hp)
      simp only
      split
      · rw [children_mapChildren, if_neg fun hc => hne hc.1, children_setParent, children_detach_of_not_mem t hx]
      · exact children_detach_of_not_mem t hx

/-- A node that is put behind another one gets its parent, or no parent, or keeps its own. -/
theorem parent_insertAfter_ne {anchor x y q : NodeId} (ha : t.parent anchor ≠ some q) (hy : t.parent y ≠ some q) :
    (t.insertAfter anchor x).parent y ≠ some q := by
  unfold insertAfter insertBeside
  split
  · exact hy
  · cases hp : t.parent anchor with
    | none => exact hy
    | some p =>
      have hcut : (t.detach x).parent y ≠ some q := by
        rw [parent_detach]
        split
        · exact nofun
        · exact hy
      simp only
      split
      · rw [parent_mapChildren, parent_setParent]
        split
        · exact fun he => ha (hp.trans he)
        · exact hcut
      · exact hcut

/-- Nodes may be put in that neither come from a node to be spared nor go to one. -/
theorem spares_insertAllAfter {anchor : NodeId} (ha : ∀ p, D p → t.parent anchor ≠ some p)
    (hids : ∀ x ∈ ids, ∀ p, D p → t.parent x ≠ some p ∧ x ∉ t.children p) : Spares D t (t.insertAllAfter anchor ids) := by
  refine ⟨fun x _ => reads_of_kind (kind_insertAllAfter t anchor ids x), fun p hp => ?_⟩
  induction ids generalizing t anchor with
  | nil => rfl
  | cons x ids ih =>
    have hx := hids x List.mem_cons_self
    have hone : ∀ q, D q → (t.insertAfter anchor x).children q = t.children q := fun q hq =>
      children_insertBeside_of_ne _ (ha q hq) (hx q hq).2
    rw [insertAllAfter, ih (fun q hq => parent_insertAfter_ne (ha q hq) (hx q hq).1) fun y hy q hq => ?_, hone p hp]
    have hy := hids y (List.mem_cons_of_mem x hy) q hq
    exact ⟨parent_insertAfter_ne (ha q hq) hy.1, by rw [hone q hq]; exact hy.2⟩

theorem spares_unwrap (ht : t.WellFormed) {x : NodeId} (hx : ∀ p, D p → x ≠ p ∧ t.parent x ≠ some p) : Spares D t (t.unwrap x) := by
  have hput : Spares D t (t.insertAllAfter x (t.children x)) := by
    refine spares_insertAllAfter (fun p hp => (hx p hp).2) fun c hc p hp => ?_
    have hcx := ht.parent_of_mem hc
    have hne : t.parent c ≠ some p := fun he => (hx p hp).1 (Option.some.inj (hcx.symm.trans he))
    exact ⟨hne, fun hmem => hne (ht.parent_of_mem hmem)⟩
  have hout : ∀ y ∈ [x], ∀ p, D p → y ∉ (t.insertAllAfter x (t.children x)).children p := by
    intro y hy p hp hmem
    rw [List.mem_singleton.mp hy, hput.children p hp] at hmem
    exact (hx p hp).2 (ht.parent_of_mem hmem)
  exact hput.trans (spares_detachAll hout)

end MailMerge.Tree
