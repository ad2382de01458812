/-
  MailMerge.Proofs.Tree.Exchange — a piece of a child list is exchanged.

  In document order the nodes below a child list are the subtrees of the children, one after
  the other. So when some children in a row are exchanged for others, a piece is exchanged of
  what is below any node above them, and nothing else (`Relists.exists_cut`). Text and kinds
  are read off such lists of nodes (`textOf`, `Twig.kinds`).

  Proved: a node that is changed within is one piece of what is below a node above it
  (`Relists.exists_piece`); a new node takes a place in one child list (`gets_last`,
  `gets_before`).
-/

import MailMerge.Proofs.Tree.Lists
import MailMerge.Proofs.Tree.Twigs

namespace MailMerge

open MailMerge.Tree

/-! ## Kinds in document order -/

/-- The character data of a node of that kind. -/
def Kind.data : Kind → String
  | .text s | .cdata s => s
  | _ => ""

namespace Twig

mutual

/-- The kinds of all nodes, in document order. -/
def kinds : Twig → List Kind
  | node k ws => k :: kindsIn ws

def kindsIn : List Twig → List Kind
  | [] => []
  | w :: ws => kinds w ++ kindsIn ws

end

theorem kindsIn_eq (ws : List Twig) : kindsIn ws = ws.flatMap kinds := by
  induction ws with
  | nil => rfl
  | cons w ws ih => rw [kindsIn, ih, List.flatMap_cons]

end Twig

namespace Tree

theorem ownText_eq (t : Tree) (x : NodeId) : t.ownText x = (t.kind x).data := by
  unfold ownText Kind.data
  cases t.kind x <;> rfl

/-- The character data of some nodes. -/
def textOf (t : Tree) (ids : List NodeId) : String := String.join (ids.map t.ownText)

theorem textContent_eq (t : Tree) (id : NodeId) : t.textContent id = t.textOf (t.subtree id) := rfl

theorem textOf_append (t : Tree) (ids ids' : List NodeId) : t.textOf (ids ++ ids') = t.textOf ids ++ t.textOf ids' := by
  rw [textOf, List.map_append, String.join_append]
  rfl

theorem textOf_congr {t u : Tree} {ids : List NodeId} (h : ∀ x ∈ ids, u.kind x = t.kind x) : u.textOf ids = t.textOf ids := by
  exact congrArg String.join (List.map_congr_left fun x hx => by rw [ownText_eq, ownText_eq, h x hx])

theorem textOf_eq (t : Tree) (ids : List NodeId) : t.textOf ids = String.join ((ids.map t.kind).map Kind.data) := by
  rw [textOf, List.map_map]
  exact congrArg _ (List.map_congr_left fun x _ => t.ownText_eq x)

theorem countP_isNamed (t : Tree) (name : String) (ids : List NodeId) :
    ids.countP (t.isNamed name) = (ids.map t.kind).countP (Kind.isNamed name) := by
  rw [List.countP_map]
  exact List.countP_congr fun x _ => by rw [isNamed_eq]; rfl

theorem WellFormed.map_kind_subtree {t : Tree} (h : t.WellFormed) (a : NodeId) : (t.subtree a).map t.kind = (t.twig a).kinds := by
  induction a using h.below_induction with
  | step a ih =>
    rw [h.subtree_eq, h.twig_eq, Twig.kinds, Twig.kindsIn_eq, List.map_cons, List.map_flatMap, List.flatMap_map]
    exact congrArg _ (List.flatMap_congr ih)

theorem WellFormed.map_kind_subtrees {t : Tree} (h : t.WellFormed) (ids : List NodeId) :
    (ids.flatMap t.subtree).map t.kind = (ids.map t.twig).flatMap Twig.kinds := by
  rw [List.map_flatMap, List.flatMap_map]
  exact List.flatMap_congr fun x _ => h.map_kind_subtree x

end Tree

/-! ## New nodes in child lists -/

namespace Tree

/-- A new node stands in the child list of `q`, and nothing else is changed. -/
structure Gets (t : Tree) (q : NodeId) (before after : List NodeId) (k : Kind) (u : Tree) : Prop where
  relists : Relists (· = q) t u
  children : u.children q = before ++ t.size :: after
  kind : u.kind t.size = k
  childless : u.children t.size = []

theorem WellFormed.gets_last {t : Tree} (h : t.WellFormed) {q : NodeId} (hq : Hosts t q) (k : Kind) (s : Span) :
    Gets t q (t.children q) [] k ((t.create k s).2.appendChild q t.size) where
  relists := by
    refine ⟨h.createBelow hq k s, ((fenced_zero h).createBelow (Nat.zero_le q) hq k s).grows, fun x hx => ?_, fun x _ hx => ?_⟩
    · rw [kind_createBelow, if_neg (Nat.ne_of_lt hx)]
    · rw [h.children_createBelow hq, if_neg hx]
  children := by rw [h.children_createBelow hq, if_pos rfl]
  kind := by rw [kind_createBelow, if_pos rfl]
  childless := by
    rw [h.children_createBelow hq, if_neg (Nat.ne_of_gt hq.lt_size), children_of_size_le (Nat.le_refl _)]

theorem WellFormed.gets_before {t : Tree} (h : t.WellFormed) {q anchor : NodeId} {before after : List NodeId}
    (hc : t.children q = before ++ anchor :: after) (k : Kind) (s : Span) :
    Gets t q before (anchor :: after) k ((t.create k s).2.insertBefore anchor t.size) := by
  have hp : t.parent anchor = some q := h.parent_of_mem (by rw [hc]; simp)
  have hne : anchor ≠ t.size := Nat.ne_of_lt (lt_size_of_parent hp)
  have hm := h.movable_created k s (h.parent_lt_size hp) (h.inner q _ hp)
  have hw : (t.create k s).2.WellFormed := (sameLinks_create t k s).wellFormed h
  have hnew : ∀ r, t.size ∉ t.children r := fun r hm => Nat.lt_irrefl _ (h.lt_size_of_mem hm)
  have hins : (t.create k s).2.insertBefore anchor t.size = (t.create k s).2.move (Siblings.insertBefore anchor t.size) q t.size := by
    rw [insertBefore, hw.insertBeside_eq _ hne (by rw [parent_create, hp])]
  have hlists : ∀ r, ((t.create k s).2.insertBefore anchor t.size).children r =
      if r = q then before ++ t.size :: anchor :: after else t.children r := by
    intro r
    rw [hins, children_move hm hw, children_create, children_create, filter_ne_self (hnew q), filter_ne_self (hnew r), hc,
      insertBefore_mem (h.children_cut hc).1]
  have hkinds : ∀ x, ((t.create k s).2.insertBefore anchor t.size).kind x = if x = t.size then k else t.kind x := by
    intro x
    rw [hins, kind_move, kind_create]
  refine ⟨⟨?_, ?_, fun x hx => ?_, fun x _ hx => ?_⟩, by rw [hlists, if_pos rfl], by rw [hkinds, if_pos rfl], ?_⟩
  · exact ((fenced_zero hw).insertBefore (fun _ _ => Nat.zero_le _) (Nat.zero_le _) (h.joinable_created k s anchor)).wellFormed
  · rw [hins, size_move, size_create]
    exact Nat.le_succ _
  · rw [hkinds, if_neg (Nat.ne_of_lt hx)]
  · rw [hlists, if_neg hx]
  · rw [hlists, if_neg (Nat.ne_of_gt (h.parent_lt_size hp)), children_of_size_le (Nat.le_refl _)]

end Tree

/-! ## Pieces of child lists -/

namespace Tree.Relists

variable {P : NodeId → Prop} {t u : Tree}

theorem subtree (h : Relists P t u) (ht : t.WellFormed) {a : NodeId} (ha : a < t.size) (hP : ∀ d, t.Within a d → ¬ P d) :
    u.subtree a = t.subtree a := by
  induction a using ht.below_induction with
  | step a ih =>
    rw [h.wellFormed.subtree_eq, ht.subtree_eq, h.children a ha (hP a (within_refl t a))]
    refine congrArg _ (List.flatMap_congr fun c hc => ih c hc (ht.lt_size_of_mem hc) fun d hd => hP d ?_)
    exact within_trans (within_of_parent (ht.parent_of_mem hc)) hd

/-- Siblings that nothing is changed within look the same. -/
theorem subtrees (h : Relists P t u) (ht : t.WellFormed) {q : NodeId} (xs : List NodeId) (hxs : ∀ x ∈ xs, x ∈ t.children q)
    (hP : ∀ x ∈ xs, ∀ d, t.Within x d → ¬ P d) : xs.flatMap u.subtree = xs.flatMap t.subtree :=
  List.flatMap_congr fun x hx => h.subtree ht (ht.lt_size_of_mem (hxs x hx)) (hP x hx)

/-- A piece of the child list of `q` is exchanged. From `q` and from all nodes above it the same
    stands before the piece, and the same behind it. -/
theorem exists_cut (h : Relists P t u) (ht : t.WellFormed) {q : NodeId} {before mid ids after : List NodeId}
    (hq : t.children q = before ++ mid ++ after) (hu : u.children q = before ++ ids ++ after) (hPq : ∀ d, P d → t.Within q d)
    (hP : ∀ x ∈ before ++ after, ∀ d, t.Within x d → ¬ P d) {p : NodeId} (hp : t.Within p q) :
    ∃ pre post, t.subtree p = pre ++ mid.flatMap t.subtree ++ post ∧ u.subtree p = pre ++ ids.flatMap u.subtree ++ post := by
  induction hp using Relation.ReflTransGen.head_induction_on with
  | refl =>
    refine ⟨q :: before.flatMap t.subtree, after.flatMap t.subtree, ?_, ?_⟩
    · rw [ht.subtree_eq, hq, List.flatMap_append, List.flatMap_append]
      rfl
    · have hb := h.subtrees ht before (fun x hx => by rw [hq]; simp [hx]) fun x hx => hP x (by simp [hx])
      have ha := h.subtrees ht after (fun x hx => by rw [hq]; simp [hx]) fun x hx => hP x (by simp [hx])
      rw [h.wellFormed.subtree_eq, hu, List.flatMap_append, List.flatMap_append, hb, ha]
      rfl
  | @head p c hc hcq ih =>
    obtain ⟨pre, post, htc, huc⟩ := ih
    obtain ⟨bs, as, hs⟩ := List.append_of_mem (ht.mem_of_parent hc)
    have hout : ¬ P p := fun hPp => ht.not_within_of_parent hc (within_trans hcq (hPq p hPp))
    -- beside the way down to `q` nothing is changed
    have hside : ∀ x, x ∈ t.children p → x ≠ c → ∀ d, t.Within x d → ¬ P d := fun x hx hne d hd hPd =>
      hne (ht.eq_of_within_siblings ((ht.parent_of_mem hx).trans hc.symm) hd (within_trans hcq (hPq d hPd))
        (by rw [ht.parent_of_mem hx]; simp))
    obtain ⟨hcb, hca⟩ := ht.children_cut hs
    have hb := h.subtrees ht bs (fun x hx => by rw [hs]; simp [hx]) fun x hx =>
      hside x (by rw [hs]; simp [hx]) fun he => hcb (he ▸ hx)
    have ha := h.subtrees ht as (fun x hx => by rw [hs]; simp [hx]) fun x hx =>
      hside x (by rw [hs]; simp [hx]) fun he => hca (he ▸ hx)
    refine ⟨p :: bs.flatMap t.subtree ++ pre, post ++ as.flatMap t.subtree, ?_, ?_⟩
    · rw [ht.subtree_eq, hs, List.flatMap_append, List.flatMap_cons, htc]
      simp
    · rw [h.wellFormed.subtree_eq, h.children p (ht.parent_lt_size hc) hout, hs, List.flatMap_append, List.flatMap_cons, hb, ha, huc]
      simp

/-- A node that is changed within is one piece of what is below a node above it. -/
theorem exists_piece {x p : NodeId} (h : Relists (t.Within x) t u) (ht : t.WellFormed) (hp : t.Within p x) (hne : x ≠ p) :
    ∃ pre post, t.descendants p = pre ++ t.subtree x ++ post ∧ u.descendants p = pre ++ u.subtree x ++ post := by
  obtain ⟨q, hq, hpq⟩ := (within_iff.mp hp).resolve_left hne
  obtain ⟨before, after, hs⟩ := List.append_of_mem (ht.mem_of_parent hq)
  have hqx : t.children q = before ++ [x] ++ after := by rw [hs]; simp
  have hside : ∀ y ∈ before ++ after, ∀ d, t.Within y d → ¬ t.Within x d := by
    intro y hy d hd hxd
    obtain ⟨hb, ha⟩ := ht.children_cut hs
    have hyq : t.parent y = some q := ht.parent_of_mem (by rw [hs]; simp at hy ⊢; tauto)
    obtain rfl := ht.eq_of_within_siblings (hyq.trans hq.symm) hd hxd (by simp [hyq])
    exact (List.mem_append.mp hy).elim hb ha
  obtain ⟨pre, post, hold, hnew⟩ := h.exists_cut ht hqx ((h.children q (ht.parent_lt_size hq) (ht.not_within_of_parent hq)).trans hqx)
    (fun d hd => within_trans (within_of_parent hq) hd) hside hpq
  rw [List.flatMap_singleton, Tree.subtree] at hold hnew
  cases pre with
  | nil =>
    -- the piece would start with `p` itself
    rw [List.nil_append, Tree.subtree, List.cons_append] at hold
    exact absurd (List.cons.inj hold).1.symm hne
  | cons y pre => exact ⟨pre, post, (List.cons.inj hold).2, (List.cons.inj hnew).2⟩

end Tree.Relists

end MailMerge
