/-
  MailMerge.Proofs.Tree.Lists — edits of a tree are edits of child lists.

  An edit of links leaves all nodes as they are but for their links (`Relinked`). A node that
  is moved leaves its list and then enters the list of its new parent, which may be the same
  one: there it stands last, first, or beside the anchor (`Moved`). Its place beside the anchor
  is told in the list that it has left. A node that is unwrapped gives its place in a list to
  its own children.

  The walk down a tree meets the same nodes in the same order before and after a node is
  unwrapped, but for that node itself (`subtree_unwrap`). So no text is lost but the node's own.

  Proved: what each edit makes of every child list and every parent (`edits_of_lists`), moves
  within one list and moves that are no moves included.
-/

import MailMerge.Proofs.Tree.Linked
import MailMerge.Proofs.Tree.Spans

namespace MailMerge.Tree

/-! ## Only links change -/

/-- The nodes are the same but for their links. -/
structure Relinked (t u : Tree) : Prop where
  size : u.size = t.size
  kind : ∀ y, u.kind y = t.kind y
  span : ∀ y, u.span y = t.span y

namespace Relinked

variable {t u v : Tree}

theorem refl (t : Tree) : Relinked t t := ⟨rfl, fun _ => rfl, fun _ => rfl⟩

theorem trans (h : Relinked t u) (h' : Relinked u v) : Relinked t v :=
  ⟨h'.size.trans h.size, fun y => (h'.kind y).trans (h.kind y), fun y => (h'.span y).trans (h.span y)⟩

theorem ownText (h : Relinked t u) (y : NodeId) : u.ownText y = t.ownText y := by
  rw [Tree.ownText, Tree.ownText, h.kind]

/-- Trees with the same nodes and the same links are the same. -/
theorem eq_of_links (h : Relinked t u) (hp : ∀ y, u.parent y = t.parent y) (hc : ∀ y, u.children y = t.children y) : u = t := by
  obtain ⟨ns⟩ := t
  obtain ⟨ms⟩ := u
  have hsize : ms.size = ns.size := h.size
  have hnode : ∀ y, (Tree.mk ms).node y = (Tree.mk ns).node y := by
    intro y
    have hk : ((Tree.mk ms).node y).kind = ((Tree.mk ns).node y).kind := h.kind y
    have hs : ((Tree.mk ms).node y).span = ((Tree.mk ns).node y).span := h.span y
    have hp : ((Tree.mk ms).node y).parent = ((Tree.mk ns).node y).parent := hp y
    have hc : ((Tree.mk ms).node y).children = ((Tree.mk ns).node y).children := hc y
    generalize (Tree.mk ms).node y = m at hk hs hp hc
    generalize (Tree.mk ns).node y = n at hk hs hp hc
    cases m
    cases n
    cases hk
    cases hs
    cases hp
    cases hc
    rfl
  rw [Tree.mk.injEq]
  refine Array.ext hsize fun i hi hi' => ?_
  have heq := hnode i
  simp only [node, Array.getD, hi, hi', dif_pos] at heq
  exact heq

end Relinked

section relinked

variable (t : Tree)

theorem relinked_setParent (x : NodeId) (p : Option NodeId) : Relinked t (t.setParent x p) :=
  ⟨size_setParent t x p, fun y => kind_setParent t x y p, fun y => span_setParent t x y p⟩

theorem relinked_mapChildren (p : NodeId) (f : List NodeId → List NodeId) : Relinked t (t.mapChildren p f) :=
  ⟨size_mapChildren t p f, fun y => kind_mapChildren t p y f, fun y => span_mapChildren t p y f⟩

theorem relinked_detach (x : NodeId) : Relinked t (t.detach x) := by
  unfold detach
  split
  · exact .refl t
  · exact (relinked_setParent _ _ _).trans (relinked_mapChildren _ _ _)

theorem relinked_move (place : List NodeId → List NodeId) (p x : NodeId) : Relinked t (t.move place p x) :=
  ((relinked_detach t x).trans (relinked_setParent _ _ _)).trans (relinked_mapChildren _ _ _)

theorem relinked_insertBeside (place : NodeId → NodeId → List NodeId → List NodeId) (anchor x : NodeId) :
    Relinked t (t.insertBeside place anchor x) := by
  unfold insertBeside
  split
  · exact .refl t
  · split
    · exact .refl t
    · dsimp only
      split
      · exact ((relinked_detach t x).trans (relinked_setParent _ _ _)).trans (relinked_mapChildren _ _ _)
      · exact relinked_detach t x

theorem relinked_insertAllAfter (anchor : NodeId) (ids : List NodeId) : Relinked t (t.insertAllAfter anchor ids) := by
  induction ids generalizing t anchor with
  | nil => exact .refl t
  | cons x ids ih => exact (relinked_insertBeside t _ anchor x).trans (ih _ x)

theorem relinked_unwrap (x : NodeId) : Relinked t (t.unwrap x) :=
  (relinked_insertAllAfter t x _).trans (relinked_detach _ x)

end relinked

/-! ## Single moves -/

/-- Of the links only those of `x` and of the nodes that lose or get it are others: it stands
    below `p` now, and no other list has it. -/
structure Moved (t u : Tree) (p x : NodeId) : Prop extends Relinked t u where
  parent : ∀ y, u.parent y = if y = x then some p else t.parent y
  others : ∀ q, q ≠ p → u.children q = (t.children q).erase x

theorem insertBefore_mem {anchor x : NodeId} {before after : List NodeId} (hb : anchor ∉ before) :
    Siblings.insertBefore anchor x (before ++ anchor :: after) = before ++ x :: anchor :: after := by
  induction before with
  | nil => simp [Siblings.insertBefore]
  | cons b before ih =>
    rw [List.mem_cons, not_or] at hb
    rw [List.cons_append, Siblings.insertBefore, if_neg (Ne.symm hb.1), ih hb.2]
    rfl

namespace Linked

variable {t : Tree} (h : t.Linked)

include h

theorem erase_children (x q : NodeId) : (t.children q).erase x = (t.children q).filter (· != x) :=
  (h.distinct q).erase_eq_filter x

theorem moved {p x : NodeId} (hp : Placeable t p x) (place : List NodeId → List NodeId) :
    Moved t (t.move place p x) p x ∧ (t.move place p x).children p = place ((t.children p).erase x) := by
  refine ⟨⟨relinked_move t place p x, hp.parent_move place, fun q hq => ?_⟩, ?_⟩
  · rw [h.children_move hp, if_neg hq, h.erase_children]
  · rw [h.children_move hp, if_pos rfl, h.erase_children]

/-- An anchor is one place in the list that the moved node has left. -/
theorem anchor_cut {anchor x p : NodeId} (hne : anchor ≠ x) (hp : t.parent anchor = some p) :
    ∃ before after, (t.children p).erase x = before ++ anchor :: after ∧ anchor ∉ before := by
  have hmem : anchor ∈ (t.children p).erase x := by
    rw [h.erase_children, List.mem_filter, bne_iff_ne]
    exact ⟨h.mem_of_parent hp, hne⟩
  obtain ⟨before, after, hcut⟩ := List.append_of_mem hmem
  have hnd := (h.distinct p).erase x
  rw [hcut, List.nodup_middle, List.nodup_cons, List.mem_append, not_or] at hnd
  exact ⟨before, after, hcut, hnd.1.1⟩

/-- A node that is put where it stands already stays there. -/
theorem insertAfter_in_place {anchor x p : NodeId} {before after : List NodeId}
    (hs : t.children p = before ++ anchor :: x :: after) : t.insertAfter anchor x = t := by
  have hxp : t.parent x = some p := h.parent_of_mem (by rw [hs]; simp)
  have hap : t.parent anchor = some p := h.parent_of_mem (by rw [hs]; simp)
  have hs' : t.children p = (before ++ [anchor]) ++ x :: after := by rw [hs]; simp
  have hx := (h.children_cut hs').1
  rw [List.mem_append, List.mem_singleton, not_or] at hx
  have ha := (h.children_cut hs).1
  have hplace : Placeable t p x := ⟨lt_size_of_parent hxp, h.parent_lt_size hxp, h.not_within_of_parent hxp⟩
  obtain ⟨hmoved, hlist⟩ := h.moved hplace (Siblings.insertAfter anchor x)
  rw [insertAfter, h.insertBeside_eq _ (Ne.symm hx.2) hap]
  refine hmoved.eq_of_links (fun y => ?_) (fun q => ?_)
  · rw [hmoved.parent]
    split
    · next he => rw [he, hxp]
    · rfl
  · by_cases hq : q = p
    · have hleft : (t.children p).erase x = before ++ anchor :: after := by
        rw [hs, List.erase_append_right _ hx.1, List.erase_cons_tail (by simpa using Ne.symm hx.2), List.erase_cons_head]
      rw [hq, hlist, hleft, insertAfter_mem ha, hs]
    · rw [hmoved.others q hq, List.erase_of_not_mem fun hmem => hq ?_]
      exact Option.some.inj ((h.parent_of_mem hmem).symm.trans hxp)

theorem insertAllAfter_in_place {anchor p : NodeId} {ids before after : List NodeId}
    (hs : t.children p = before ++ anchor :: ids ++ after) : t.insertAllAfter anchor ids = t := by
  induction ids generalizing anchor before with
  | nil => rfl
  | cons x ids ih =>
    have hx : t.children p = before ++ anchor :: x :: (ids ++ after) := by rw [hs]; simp
    rw [insertAllAfter, h.insertAfter_in_place hx]
    have hs' : t.children p = (before ++ [anchor]) ++ x :: ids ++ after := by rw [hs]; simp
    exact ih hs'

/-! ## Unwrapping -/

theorem unwrap_of_parent_none {x : NodeId} (hx : t.parent x = none) : t.unwrap x = t := by
  have hstay : t.insertAllAfter x (t.children x) = t := by
    cases hc : t.children x with
    | nil => rfl
    | cons c cs =>
      have hfirst : t.insertAfter x c = t := insertBeside_of_parent_none _ hx c
      rw [insertAllAfter, hfirst]
      have hs : t.children x = [] ++ c :: cs ++ [] := by rw [hc]; simp
      exact h.insertAllAfter_in_place hs
  rw [Tree.unwrap, hstay, detach_of_parent_none hx]

theorem children_unwrap {p x : NodeId} {before after : List NodeId} (hs : t.children p = before ++ x :: after) :
    (t.unwrap x).children p = before ++ t.children x ++ after ∧ (t.unwrap x).children x = [] ∧
      ∀ q, q ≠ p → q ≠ x → (t.unwrap x).children q = t.children q := by
  have hx : t.parent x = some p := h.parent_of_mem (by rw [hs]; simp)
  have hne : p ≠ x := fun he => h.not_within_of_parent hx (he ▸ within_refl t x)
  have hs' : t.bare.children p = before ++ x :: after := by rw [children_bare, hs]
  obtain ⟨hrest, hlist⟩ := h.bare.unwrap_spec hs'
  rw [← bare_unwrap, children_bare, children_bare] at hlist
  refine ⟨hlist, List.eq_nil_iff_forall_not_mem.mpr fun c hc => ?_, fun q hqp hqx => ?_⟩
  · -- whoever has `x` as its parent now had it before, and so was given another one
    have hp := (h.unwrap x).parent_of_mem hc
    rw [h.parent_unwrap] at hp
    split at hp
    · cases hp
    · split at hp
      · rw [hx] at hp
        exact hne (Option.some.inj hp)
      · next hold => exact hold hp
  · by_cases hq : q < t.size
    · have hsame := hrest.children q (by simpa using hq) (by simp [hqp, hqx])
      rwa [← bare_unwrap, children_bare, children_bare] at hsame
    · rw [children_of_size_le (Nat.le_of_not_lt hq), children_of_size_le]
      rw [(relinked_unwrap t x).size]
      exact Nat.le_of_not_lt hq

/-- The walk below a node leaves out what was unwrapped, and is the same otherwise. -/
theorem subtree_unwrap {a x : NodeId} (hne : a ≠ x) : (t.unwrap x).subtree a = (t.subtree a).erase x := by
  rw [(h.nodup_subtree a).erase_eq_filter]
  cases hp : t.parent x with
  | none =>
    rw [h.unwrap_of_parent_none hp, filter_ne_self fun hmem => hne ?_]
    exact within_of_parent_none hp (h.mem_subtree.mp hmem)
  | some p =>
    obtain ⟨before, after, hs⟩ := List.append_of_mem (h.mem_of_parent hp)
    obtain ⟨hlist, -, hrest⟩ := h.children_unwrap hs
    obtain ⟨hb, ha⟩ := h.children_cut hs
    -- the children of `x` come up to `p` from two levels below, so two levels are told at once
    have hboth : ∀ a, (a ≠ x → (t.unwrap x).subtree a = (t.subtree a).filter (· != x)) ∧
        ∀ c ∈ t.children a, c ≠ x → (t.unwrap x).subtree c = (t.subtree c).filter (· != x) := by
      intro a
      induction a using h.below_induction with
      | step a ih =>
        refine ⟨fun hax => ?_, fun c hc hcx => (ih c hc).1 hcx⟩
        rw [(h.unwrap x).subtree_eq, h.subtree_eq, List.filter_cons_of_pos (by simpa using hax), List.filter_flatMap]
        congr 1
        by_cases hap : a = p
        · subst hap
          have hbeside : ∀ c, c ∈ before ∨ c ∈ after → (t.unwrap x).subtree c = (t.subtree c).filter (· != x) := by
            intro c hc
            refine (ih c (by rw [hs]; grind)).1 fun he => ?_
            exact hc.elim (fun hc => hb (he ▸ hc)) fun hc => ha (he ▸ hc)
          have hbelow : ∀ c ∈ t.children x, (t.unwrap x).subtree c = (t.subtree c).filter (· != x) := fun c hc =>
            (ih x (h.mem_of_parent hp)).2 c hc fun he => h.not_within_of_parent (h.parent_of_mem hc) (he ▸ within_refl t c)
          rw [hlist, hs, List.flatMap_append, List.flatMap_append, List.flatMap_append, List.flatMap_cons, h.subtree_eq x,
            List.filter_cons_of_neg (by simp), List.filter_flatMap, List.flatMap_congr hbelow,
            List.flatMap_congr fun c hc => hbeside c (Or.inl hc), List.flatMap_congr fun c hc => hbeside c (Or.inr hc),
            List.append_assoc]
        · rw [hrest a hap hax]
          refine List.flatMap_congr fun c hc => (ih c hc).1 fun he => hap ?_
          exact Option.some.inj ((h.parent_of_mem (he ▸ hc)).symm.trans hp)
    exact (hboth a).1 hne

/-- Only the character data of the node itself can get lost. -/
theorem textContent_unwrap {a x : NodeId} (hne : a ≠ x) :
    (t.unwrap x).textContent a = t.textContent a ↔ ¬ t.Within a x ∨ t.ownText x = "" := by
  have hown : (t.unwrap x).ownText = t.ownText := funext (relinked_unwrap t x).ownText
  rw [textContent, textContent, h.subtree_unwrap hne, hown]
  by_cases hw : t.Within a x
  · obtain ⟨before, after, hs⟩ := List.append_of_mem (h.mem_subtree.mpr hw)
    have hb : x ∉ before := by
      have hnd := h.nodup_subtree a
      rw [hs, List.nodup_middle, List.nodup_cons, List.mem_append, not_or] at hnd
      exact hnd.1.1
    rw [hs, List.erase_append_right _ hb, List.erase_cons_head]
    have hlost : ∀ before own after : String, before ++ after = before ++ (own ++ after) ↔ own = "" := fun before own after => by
      rw [String.append_right_inj, eq_comm]
      simp
    rw [List.map_append, List.map_append, List.map_cons, String.join_append, String.join_append, String.join_cons, hlost]
    simp [hw]
  · rw [List.erase_of_not_mem fun hmem => hw (h.mem_subtree.mp hmem)]
    simp [hw]

end Linked

/-! ## All edits of links -/

/-- What the edits of links make of the child lists and the parents of a tree. -/
structure ListEdits (t : Tree) : Prop where
  append : ∀ p x, Placeable t p x → Moved t (t.appendChild p x) p x ∧
    (t.appendChild p x).children p = (t.children p).erase x ++ [x]
  prepend : ∀ p x, Placeable t p x → Moved t (t.prependChild p x) p x ∧
    (t.prependChild p x).children p = x :: (t.children p).erase x
  /-- The anchor is looked for among the siblings when the node has left its old place. -/
  beside : ∀ anchor x p, anchor ≠ x → t.parent anchor = some p → Placeable t p x →
    ∃ before after, (t.children p).erase x = before ++ anchor :: after ∧
      (Moved t (t.insertAfter anchor x) p x ∧ (t.insertAfter anchor x).children p = before ++ anchor :: x :: after) ∧
      (Moved t (t.insertBefore anchor x) p x ∧ (t.insertBefore anchor x).children p = before ++ x :: anchor :: after)
  /-- Beside itself, and beside a node that stands nowhere, a node is not put. -/
  idle : ∀ anchor x, t.parent anchor = none ∨ anchor = x → t.insertAfter anchor x = t ∧ t.insertBefore anchor x = t
  detach : ∀ x, Relinked t (t.detach x) ∧ (∀ y, (t.detach x).parent y = if y = x then none else t.parent y) ∧
    ∀ q, (t.detach x).children q = (t.children q).erase x
  unwrap : ∀ x p, t.parent x = some p → Relinked t (t.unwrap x) ∧
    (∀ y, (t.unwrap x).parent y = if y = x then none else if t.parent y = some x then some p else t.parent y) ∧
    (∃ before after, t.children p = before ++ x :: after ∧ (t.unwrap x).children p = before ++ t.children x ++ after) ∧
    (t.unwrap x).children x = [] ∧ ∀ q, q ≠ p → q ≠ x → (t.unwrap x).children q = t.children q
  unwrapNowhere : ∀ x, t.parent x = none → t.unwrap x = t
  /-- What is unwrapped takes the character data that it holds itself out of the tree, and no other. -/
  text : ∀ x, (t.unwrap x).textContent root = t.textContent root ↔ x = root ∨ ¬ t.Within root x ∨ t.ownText x = ""

/-- In a linked tree every edit of links is an edit of child lists, whichever nodes it is given
    as long as it puts none below itself. -/
theorem edits_of_lists {t : Tree} (h : t.Linked) : ListEdits t where
  append p x hp := h.moved hp (· ++ [x])
  prepend p x hp := h.moved hp (x :: ·)
  beside anchor x p hne hanchor hp := by
    obtain ⟨before, after, hcut, hb⟩ := h.anchor_cut hne hanchor
    obtain ⟨hafter, hlist⟩ := h.moved hp (Siblings.insertAfter anchor x)
    obtain ⟨hbefore, hlist'⟩ := h.moved hp (Siblings.insertBefore anchor x)
    rw [hcut, insertAfter_mem hb] at hlist
    rw [hcut, insertBefore_mem hb] at hlist'
    rw [insertAfter, insertBefore, h.insertBeside_eq _ hne hanchor, h.insertBeside_eq _ hne hanchor]
    exact ⟨before, after, hcut, ⟨hafter, hlist⟩, hbefore, hlist'⟩
  idle anchor x hidle := by
    rcases hidle with hp | rfl
    · exact ⟨insertBeside_of_parent_none _ hp x, insertBeside_of_parent_none _ hp x⟩
    · exact ⟨insertBeside_self _ t anchor, insertBeside_self _ t anchor⟩
  detach x := ⟨relinked_detach t x, parent_detach t x, fun q => by rw [h.children_detach, h.erase_children]⟩
  unwrap x p hp := by
    obtain ⟨before, after, hs⟩ := List.append_of_mem (h.mem_of_parent hp)
    obtain ⟨hlist, hleft, hrest⟩ := h.children_unwrap hs
    refine ⟨relinked_unwrap t x, fun y => ?_, ⟨before, after, hs, hlist⟩, hleft, hrest⟩
    rw [h.parent_unwrap, hp, Option.getD_some]
  unwrapNowhere x := h.unwrap_of_parent_none
  text x := by
    by_cases hx : x = root
    · rw [hx, h.unwrap_of_parent_none h.top]
      simp
    · rw [h.textContent_unwrap (Ne.symm hx)]
      simp [hx]

namespace TextInTexts

/-- An element around a text, another text behind it, and a comment below that. -/
def tree : Tree := ⟨#[⟨.container, none, [1], .none⟩, ⟨.element "a" [], some 0, [2, 4], .none⟩,
  ⟨.element "b" [], some 1, [3], .none⟩, ⟨.text "x", some 2, [], .none⟩, ⟨.text "y", some 1, [5], .none⟩,
  ⟨.comment "c", some 4, [], .none⟩]⟩

theorem linked : tree.Linked := linked_of_earlier (by decide) (by decide) (by decide)

end TextInTexts

open TextInTexts in
/-- The first child of a node becomes its last, and the node that is unwrapped leaves its text. -/
theorem lists_of_nested_texts : tree.Linked ∧ (tree.appendChild 1 2).children 1 = [4, 2] ∧
    (∃ before after, [4] = before ++ 4 :: after ∧ (tree.insertAfter 4 2).children 1 = before ++ 4 :: 2 :: after) ∧
    (tree.unwrap 2).children 2 = [] ∧ (tree.unwrap 2).textContent root = tree.textContent root := by
  have hedits := edits_of_lists linked
  have hplace : Placeable tree 1 2 := ⟨by decide, by decide, linked.not_within_of_parent rfl⟩
  obtain ⟨before, after, hcut, hafter, -⟩ := hedits.beside 4 2 1 (by decide) rfl hplace
  obtain ⟨-, -, -, hleft, -⟩ := hedits.unwrap 2 1 rfl
  exact ⟨linked, (hedits.append 1 2 hplace).2, ⟨before, after, hcut, hafter.2⟩, hleft, (hedits.text 2).mpr (Or.inr (Or.inr rfl))⟩

open TextInTexts in
/-- A text that is unwrapped is lost itself. -/
theorem text_lost_when_unwrapped : tree.Linked ∧ tree.textContent root = "xy" ∧
    (tree.unwrap 3).textContent root = "y" := ⟨linked, by decide, by decide⟩

end MailMerge.Tree
