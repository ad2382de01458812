/-
  MailMerge.Proofs.Tree.Doubled — copies node by node.

  A copy is made while the original is walked: the copy of a node gets the next free number,
  then its children are copied one after the other, each into the store that the copies before
  it have left. So copies are numbered in the order of the walk, and the place of a node in that
  order tells the number of its copy (`copyNumber`). The copies of the children made so far are
  in the child list of their parent's copy already (`Doubling`); the copy of the next child is
  made beside them and adopted last.

  Proved: in a linked tree, whatever its nodes are, the copy has one node for each node of the
  subtree, of the same kind and span, with the copies of its children as its children and
  the copy of its parent as its parent; its nodes are new, nothing else is new, and no node that
  was there before is changed (`deepCopy_faithful`).
-/

import MailMerge.Proofs.Tree.Ages
import MailMerge.Proofs.Tree.Renumbered

namespace MailMerge.Tree

variable {t u v : Tree}

/-! ## Subtrees in a tree that has grown -/

/-- A subtree whose nodes have kept their children is the same. -/
theorem Linked.subtree_congr (h : t.Linked) (hu : u.Linked) {a : NodeId} (hs : ∀ d, t.Within a d → u.children d = t.children d) :
    u.subtree a = t.subtree a := by
  induction a using h.below_induction with
  | step a ih =>
    rw [hu.subtree_eq, h.subtree_eq, hs a (within_refl t a)]
    refine congrArg _ (List.flatMap_congr fun c hc => ih c hc fun d hd => hs d ?_)
    exact within_trans (within_of_parent (h.parent_of_mem hc)) hd

theorem Linked.lt_size_of_mem_subtree (h : t.Linked) {a d : NodeId} (ha : a < t.size) (hd : d ∈ t.subtree a) : d < t.size := by
  by_cases hda : d = a
  · exact hda ▸ ha
  · exact lt_size_of_within (h.mem_subtree.mp hd) hda

theorem Linked.child_mem_subtree (h : t.Linked) {a d c : NodeId} (hd : d ∈ t.subtree a) (hc : c ∈ t.children d) : c ∈ t.subtree a :=
  h.mem_subtree.mpr (within_parent (h.mem_subtree.mp hd) (h.parent_of_mem hc))

theorem Linked.length_subtree_le (h : t.Linked) {a : NodeId} (ha : a < t.size) : (t.subtree a).length ≤ t.size := by
  have hsub : t.subtree a ⊆ List.range t.size := fun d hd => List.mem_range.mpr (h.lt_size_of_mem_subtree ha hd)
  simpa using ((h.nodup_subtree a).subperm hsub).length_le

/-! ## Numbers of copies -/

/-- The number of the copy of a node, when nodes are copied in that order. -/
def copyNumber (t : Tree) (order : List NodeId) (d : NodeId) : NodeId := t.size + order.idxOf d

theorem copyNumber_head (t : Tree) (a : NodeId) (order : List NodeId) : t.copyNumber (a :: order) a = t.size := by
  simp [copyNumber]

theorem copyNumber_append_of_mem {order : List NodeId} {d : NodeId} (hd : d ∈ order) (more : List NodeId) :
    t.copyNumber (order ++ more) d = t.copyNumber order d := by
  rw [copyNumber, copyNumber, List.idxOf_append_of_mem hd]

/-- What is copied later is numbered from where the store ends then. -/
theorem copyNumber_append_of_not_mem {order more : List NodeId} {d : NodeId} (hd : d ∉ order)
    (hsize : u.size = t.size + order.length) : t.copyNumber (order ++ more) d = u.copyNumber more d := by
  rw [copyNumber, copyNumber, List.idxOf_append_of_notMem hd, hsize, Nat.add_assoc]

theorem map_copyNumber (t : Tree) {order : List NodeId} (hnodup : order.Nodup) :
    order.map (t.copyNumber order) = List.range' t.size order.length := by
  refine List.ext_getElem (by simp) fun i hi _ => ?_
  rw [List.getElem_map, copyNumber, hnodup.idxOf_getElem, List.getElem_range', Nat.one_mul]

/-! ## Copies under way -/

/-- Some nodes have their copies in `u`, with the copies of the nodes that `below` tells as their
    children; what was in `t` is untouched. -/
structure Mirrored (t : Tree) (order : List NodeId) (below : NodeId → List NodeId) (u : Tree) : Prop where
  linked : u.Linked
  lone : u.parent t.size = none
  size : u.size = t.size + order.length
  kept : ∀ y < t.size, u.node y = t.node y
  kind : ∀ d ∈ order, u.kind (t.copyNumber order d) = t.kind d
  span : ∀ d ∈ order, u.span (t.copyNumber order d) = t.span d
  children : ∀ d ∈ order, u.children (t.copyNumber order d) = (below d).map (t.copyNumber order)

namespace Mirrored

variable {order more : List NodeId} {below : NodeId → List NodeId}

theorem copyNumber_lt (hu : Mirrored t order below u) {d : NodeId} (hd : d ∈ order) : t.copyNumber order d < u.size := by
  rw [hu.size, copyNumber]
  exact Nat.add_lt_add_left (List.idxOf_lt_length_iff.mpr hd) _

/-- More copies, made behind the others, if each of the two rows has all the children of its nodes. -/
theorem append (hu : Mirrored t order below u) {below' : NodeId → List NodeId} (hv : Mirrored u more below' v) (hsize : t.size < u.size)
    (hin : ∀ d ∈ more, d < t.size) (hapart : ∀ d ∈ more, d ∉ order) (hclosed : ∀ d ∈ order, ∀ c ∈ below d, c ∈ order)
    (hclosed' : ∀ d ∈ more, below' d = below d ∧ ∀ c ∈ below d, c ∈ more) : Mirrored t (order ++ more) below v := by
  have hkept : ∀ y < u.size, v.node y = u.node y := hv.kept
  have hfirst : ∀ d ∈ order, t.copyNumber (order ++ more) d = t.copyNumber order d ∧
      v.node (t.copyNumber order d) = u.node (t.copyNumber order d) := fun d hd =>
    ⟨copyNumber_append_of_mem hd more, hkept _ (hu.copyNumber_lt hd)⟩
  have hsecond : ∀ d ∈ more, t.copyNumber (order ++ more) d = u.copyNumber more d ∧ u.node d = t.node d := fun d hd =>
    ⟨copyNumber_append_of_not_mem (hapart d hd) hu.size, hu.kept d (hin d hd)⟩
  refine ⟨hv.linked, ?_, ?_, fun y hy => ?_, fun d hd => ?_, fun d hd => ?_, fun d hd => ?_⟩
  · exact (congrArg Node.parent (hkept _ hsize)).trans hu.lone
  · rw [hv.size, hu.size, List.length_append, Nat.add_assoc]
  · rw [hkept y (Nat.lt_trans hy hsize), hu.kept y hy]
  · rcases List.mem_append.mp hd with hd | hd
    · rw [(hfirst d hd).1, ← hu.kind d hd]
      exact congrArg Node.kind (hfirst d hd).2
    · rw [(hsecond d hd).1, hv.kind d hd]
      exact congrArg Node.kind (hsecond d hd).2
  · rcases List.mem_append.mp hd with hd | hd
    · rw [(hfirst d hd).1, ← hu.span d hd]
      exact congrArg Node.span (hfirst d hd).2
    · rw [(hsecond d hd).1, hv.span d hd]
      exact congrArg Node.span (hsecond d hd).2
  · rcases List.mem_append.mp hd with hd | hd
    · have hsame : v.children (t.copyNumber order d) = u.children (t.copyNumber order d) := congrArg Node.children (hfirst d hd).2
      rw [(hfirst d hd).1, hsame, hu.children d hd]
      exact List.map_congr_left fun c hc => (hfirst c (hclosed d hd c hc)).1.symm
    · obtain ⟨hbelow, hall⟩ := hclosed' d hd
      rw [(hsecond d hd).1, hv.children d hd, hbelow]
      exact List.map_congr_left fun c hc => (hsecond c (hall c hc)).1.symm

/-- A copy that stands nowhere becomes the last child of the first one. -/
theorem adopt {id c : NodeId} (hv : Mirrored t (id :: order) below v) (hnodup : (id :: order).Nodup) (hc : c ∈ order)
    (hlone : v.parent (t.copyNumber (id :: order) c) = none) {below' : NodeId → List NodeId} (htop : below' id = below id ++ [c])
    (hrest : ∀ d ∈ order, below' d = below d) :
    Mirrored t (id :: order) below' (v.adopt t.size (t.copyNumber (id :: order) c)) := by
  have hne : ∀ {d}, d ∈ order → d ≠ id := fun hd he => (List.nodup_cons.mp hnodup).1 (he ▸ hd)
  have hother : ∀ {d}, d ∈ order → t.size < t.copyNumber (id :: order) d := fun hd => by
    rw [copyNumber, List.idxOf_cons_ne _ (Ne.symm (hne hd))]
    omega
  have hlt := hv.copyNumber_lt (List.mem_cons_of_mem id hc)
  have hcs := hother hc
  have hplace : Placeable v t.size (t.copyNumber (id :: order) c) :=
    ⟨hlt, Nat.lt_trans hcs hlt, fun hw => Nat.ne_of_gt hcs (within_of_parent_none hv.lone hw)⟩
  refine ⟨?_, ?_, ?_, fun y hy => ?_, fun d hd => ?_, fun d hd => ?_, fun d hd => ?_⟩
  · rw [adopt_eq_appendChild hlone]
    exact hv.linked.move hplace (Nat.ne_of_gt (Nat.lt_of_le_of_lt (Nat.zero_le _) hcs)) (adds_append _ _)
  · rw [adopt_eq, parent_attach _ hlt, if_neg (Nat.ne_of_lt hcs), hv.lone]
  · rw [adopt_eq, size_attach, hv.size]
  · rw [node_adopt_of_ne _ (Nat.ne_of_lt hy) (Nat.ne_of_lt (Nat.lt_trans hy hcs)), hv.kept y hy]
  · rw [adopt_eq, kind_attach, hv.kind d hd]
  · rw [Tree.adopt, span_mapChildren, span_setParent, hv.span d hd]
  · rw [adopt_eq, children_attach _ hplace.below]
    rcases List.mem_cons.mp hd with rfl | hd
    · have hfirst := hv.children d List.mem_cons_self
      rw [copyNumber_head] at hfirst
      rw [copyNumber_head, if_pos rfl, htop, hfirst, List.map_append]
      rfl
    · rw [if_neg (Nat.ne_of_gt (hother hd)), hrest d hd, hv.children d (List.mem_cons_of_mem id hd)]

end Mirrored

/-- The subtree of a node has its copy in `u`. -/
def Doubled (t : Tree) (id : NodeId) (u : Tree) : Prop := Mirrored t (t.subtree id) t.children u

/-- A node has its copy in `u`, and so have the subtrees of the first of its children. -/
def Doubling (t : Tree) (id : NodeId) (done : List NodeId) (u : Tree) : Prop :=
  Mirrored t (id :: done.flatMap t.subtree) (fun d => if d = id then done else t.children d) u

theorem doubling_create (h : t.Linked) (id : NodeId) : Doubling t id [] (t.create (t.kind id) (t.span id)).2 where
  linked := (h.aged.create _ _).aged.linked
  lone := by rw [parent_create]; exact parent_of_size_le (Nat.le_refl _)
  size := by rw [size_create]; rfl
  kept y hy := by rw [node_create, if_neg (Nat.ne_of_lt hy)]
  kind d hd := by
    obtain rfl := List.mem_singleton.mp hd
    rw [copyNumber_head, kind_create, if_pos rfl]
  span d hd := by
    obtain rfl := List.mem_singleton.mp hd
    rw [copyNumber_head, span_create, if_pos rfl]
  children d hd := by
    obtain rfl := List.mem_singleton.mp hd
    rw [copyNumber_head, children_create, children_of_size_le (Nat.le_refl _), if_pos rfl]
    rfl

/-- What was there before looks as it did. -/
theorem Mirrored.subtree_eq {order : List NodeId} {below : NodeId → List NodeId} (hu : Mirrored t order below u) (h : t.Linked)
    {c : NodeId} (hc : c < t.size) : u.subtree c = t.subtree c :=
  h.subtree_congr hu.linked fun d hd => congrArg Node.children (hu.kept d (h.lt_size_of_mem_subtree hc (h.mem_subtree.mpr hd)))

/-- The copy of the next child is made and adopted. -/
theorem Doubling.step (h : t.Linked) {id c : NodeId} {done rest : List NodeId} (hs : t.children id = done ++ c :: rest)
    (hu : Doubling t id done u) (hv : Doubled u c v) : Doubling t id (done ++ [c]) (v.adopt t.size u.size) := by
  have hcp : t.parent c = some id := h.parent_of_mem (by rw [hs]; simp)
  have hclt : c < t.size := lt_size_of_parent hcp
  have hgrown : t.size < u.size := by rw [hu.size]; exact Nat.lt_add_of_pos_right (Nat.succ_pos _)
  have hbound : ∀ d ∈ t.subtree c, d < t.size := fun d => h.lt_size_of_mem_subtree hclt
  unfold Doubled at hv
  rw [hu.subtree_eq h hclt] at hv
  -- the walk below the node meets what is copied already, then the next child and what is below it
  have horder : id :: (done ++ [c]).flatMap t.subtree = (id :: done.flatMap t.subtree) ++ t.subtree c := by simp
  have hnodup : ((id :: done.flatMap t.subtree) ++ t.subtree c).Nodup := by
    have hall := h.nodup_subtree id
    rw [h.subtree_eq, hs, List.flatMap_append, List.flatMap_cons, ← List.cons_append, ← List.append_assoc] at hall
    exact (List.nodup_append.mp hall).1
  have hnew : ∀ d ∈ t.subtree c, d ∉ id :: done.flatMap t.subtree := fun d hd hd' => (List.nodup_append.mp hnodup).2.2 d hd' d hd rfl
  have hne : ∀ d ∈ t.subtree c, d ≠ id := fun d hd he => hnew d hd (he ▸ List.mem_cons_self)
  have hclosed : ∀ d ∈ id :: done.flatMap t.subtree, ∀ x ∈ (if d = id then done else t.children d), x ∈ id :: done.flatMap t.subtree := by
    intro d hd x hx
    refine List.mem_cons_of_mem id ?_
    split at hx
    · exact List.mem_flatMap.mpr ⟨x, hx, List.mem_cons_self⟩
    · next hdid =>
      obtain ⟨b, hb, hdb⟩ := List.mem_flatMap.mp ((List.mem_cons.mp hd).resolve_left hdid)
      exact List.mem_flatMap.mpr ⟨b, hb, h.child_mem_subtree hdb hx⟩
  have hboth : Mirrored t (id :: (done.flatMap t.subtree ++ t.subtree c)) (fun d => if d = id then done else t.children d) v :=
    Mirrored.append hu hv hgrown hbound hnew hclosed fun d hd => by
      rw [if_neg (hne d hd)]
      exact ⟨congrArg Node.children (hu.kept d (hbound d hd)), fun x => h.child_mem_subtree hd⟩
  have hcopy : t.copyNumber (id :: (done.flatMap t.subtree ++ t.subtree c)) c = u.size := by
    rw [← List.cons_append, copyNumber_append_of_not_mem (hnew c List.mem_cons_self) hu.size, subtree, copyNumber_head]
  have hout : ∀ d ∈ done.flatMap t.subtree ++ t.subtree c, d ≠ id := fun d hd he => (List.nodup_cons.mp hnodup).1 (he ▸ hd)
  rw [Doubling, horder, ← hcopy]
  refine hboth.adopt hnodup (List.mem_append_right _ List.mem_cons_self) (by rw [hcopy]; exact hv.lone) ?_ fun d hd => ?_
  · rw [if_pos rfl, if_pos rfl]
  · rw [if_neg (hout d hd), if_neg (hout d hd)]

/-- When all children have been copied the whole subtree has been. -/
theorem Doubling.doubled (h : t.Linked) {id : NodeId} (hu : Doubling t id (t.children id) u) : Doubled t id u := by
  have hbelow : (fun d => if d = id then t.children id else t.children d) = t.children := by
    funext d
    split
    · next he => rw [he]
    · rfl
  rw [Doubling, hbelow, ← h.subtree_eq] at hu
  exact hu

/-- A copy of enough levels is a copy of the whole subtree. -/
theorem doubled_copyTo (h : t.Linked) {id : NodeId} (hid : id < t.size) (n : Nat) (hn : (t.subtree id).length ≤ n + 1) :
    Doubled t id (copyTo n t id).2 := by
  induction n generalizing t id with
  | zero =>
    have hnil : t.children id = [] := by
      rw [h.subtree_eq, List.length_cons] at hn
      cases hc : t.children id with
      | nil => rfl
      | cons c cs =>
        rw [hc, List.flatMap_cons, subtree, List.length_append, List.length_cons] at hn
        omega
    have hone := doubling_create h id
    rw [← hnil] at hone
    exact hone.doubled h
  | succ n ih =>
    have hfold : ∀ (todo done : List NodeId) (u : Tree), t.children id = done ++ todo → Doubling t id done u →
        Doubling t id (t.children id) (todo.foldl (fun u child => (copyTo n u child).2.adopt t.size (copyTo n u child).1) u) := by
      intro todo
      induction todo with
      | nil => intro done u hs hu; rwa [hs, List.append_nil]
      | cons c todo ihc =>
        intro done u hs hu
        have hcp : t.parent c = some id := h.parent_of_mem (by rw [hs]; simp)
        have hsame := hu.subtree_eq h (lt_size_of_parent hcp)
        have hshort : (t.subtree c).length ≤ n + 1 := by
          rw [h.subtree_eq, hs] at hn
          simp at hn
          omega
        have hgrown : t.size ≤ u.size := by rw [hu.size]; exact Nat.le_add_right _ _
        have hcopy := ih hu.linked (Nat.lt_of_lt_of_le (lt_size_of_parent hcp) hgrown) (by rwa [hsame])
        rw [List.foldl_cons, fst_copyTo]
        exact ihc (done ++ [c]) _ (by rw [hs]; simp) (hu.step h hs hcopy)
    exact (hfold (t.children id) [] _ rfl (doubling_create h id)).doubled h

/-! ## The copy as a whole -/

namespace Doubled

variable {id : NodeId} (hu : Doubled t id u) (h : t.Linked)

include hu h

/-- Below the copy of a node stand the copies of what is below the node, in the same order. -/
theorem subtree_copy {d : NodeId} (hd : d ∈ t.subtree id) :
    u.subtree (t.copyNumber (t.subtree id) d) = (t.subtree d).map (t.copyNumber (t.subtree id)) := by
  induction d using h.below_induction with
  | step d ih =>
    rw [hu.linked.subtree_eq, hu.children d hd, h.subtree_eq d, List.map_cons, List.map_flatMap, List.flatMap_map]
    exact congrArg _ (List.flatMap_congr fun c hc => ih c hc (h.child_mem_subtree hd hc))

theorem twig_copy {d : NodeId} (hd : d ∈ t.subtree id) : u.twig (t.copyNumber (t.subtree id) d) = t.twig d := by
  induction d using h.below_induction with
  | step d ih =>
    rw [hu.linked.twig_eq, h.twig_eq, hu.kind d hd, hu.children d hd, List.map_map]
    exact congrArg _ (List.map_congr_left fun c hc => ih c hc (h.child_mem_subtree hd hc))

theorem parent_copy {d : NodeId} (hd : d ∈ t.subtree id) (hne : d ≠ id) :
    u.parent (t.copyNumber (t.subtree id) d) = (t.parent d).map (t.copyNumber (t.subtree id)) := by
  obtain ⟨p, hp, hw⟩ := (within_iff.mp (h.mem_subtree.mp hd)).resolve_left hne
  have hmem : t.copyNumber (t.subtree id) d ∈ u.children (t.copyNumber (t.subtree id) p) := by
    rw [hu.children p (h.mem_subtree.mpr hw)]
    exact List.mem_map_of_mem (h.mem_of_parent hp)
  rw [hu.linked.parent_of_mem hmem, hp]
  rfl

theorem textContent_copy : u.textContent (t.copyNumber (t.subtree id) id) = t.textContent id := by
  have hself : id ∈ t.subtree id := List.mem_cons_self
  rw [textContent, textContent, hu.subtree_copy h hself, List.map_map]
  refine congrArg _ (List.map_congr_left fun d hd => ?_)
  rw [Function.comp_apply, ownText, ownText, hu.kind d hd]

end Doubled

/-- The copy of the subtree of `x`; the copy of a node within it has the number that `copyNumber`
    tells. -/
structure FaithfulCopy (t : Tree) (x copy : NodeId) (u : Tree) : Prop where
  linked : u.Linked
  /-- The copy is the root of a tree of its own. -/
  lone : u.parent copy = none
  /-- As many nodes are new as the subtree has. -/
  size : u.size = t.size + (t.subtree x).length
  /-- All of them stand in the copy, numbered in the order of the walk. -/
  numbered : u.subtree copy = List.range' t.size (t.subtree x).length
  order : u.subtree copy = (t.subtree x).map (t.copyNumber (t.subtree x))
  kind : ∀ d ∈ t.subtree x, u.kind (t.copyNumber (t.subtree x) d) = t.kind d
  span : ∀ d ∈ t.subtree x, u.span (t.copyNumber (t.subtree x) d) = t.span d
  children : ∀ d ∈ t.subtree x, u.children (t.copyNumber (t.subtree x) d) = (t.children d).map (t.copyNumber (t.subtree x))
  parent : ∀ d ∈ t.subtree x, d ≠ x → u.parent (t.copyNumber (t.subtree x) d) = (t.parent d).map (t.copyNumber (t.subtree x))
  markup : u.subtreeToMarkup copy = t.subtreeToMarkup x
  text : u.textContent copy = t.textContent x
  /-- What was there before is unchanged, the original included. -/
  kept : ∀ y < t.size, u.node y = t.node y

theorem deepCopy_faithful {t : Tree} (h : t.Linked) {x : NodeId} (hx : x < t.size) :
    FaithfulCopy t x (t.deepCopy x).1 (t.deepCopy x).2 := by
  have hself : x ∈ t.subtree x := List.mem_cons_self
  have hcopy : Doubled t x (t.deepCopy x).2 := doubled_copyTo h hx t.size (Nat.le_succ_of_le (h.length_subtree_le hx))
  have hnumber : (t.deepCopy x).1 = t.copyNumber (t.subtree x) x := by rw [deepCopy, fst_copyTo, subtree, copyNumber_head]
  have horder := hcopy.subtree_copy h hself
  rw [hnumber]
  refine ⟨hcopy.linked, ?_, hcopy.size, ?_, horder, hcopy.kind, hcopy.span, hcopy.children, fun d => hcopy.parent_copy h, ?_,
    hcopy.textContent_copy h, hcopy.kept⟩
  · rw [subtree, copyNumber_head]
    exact hcopy.lone
  · rw [horder, map_copyNumber t (h.nodup_subtree x)]
  · exact subtreeToMarkup_congr (hcopy.twig_copy h hself)

open TextInTexts in
/-- An element with two texts, below one of them a comment. -/
theorem nested_texts_copied : tree.Linked ∧ 1 < tree.size ∧ (tree.deepCopy 1).1 = 6 ∧ (tree.deepCopy 1).2.parent 6 = none ∧
    (tree.deepCopy 1).2.subtree 6 = [6, 7, 8, 9, 10] ∧ (tree.deepCopy 1).2.children 9 = [10] ∧
    (tree.deepCopy 1).2.subtreeToMarkup 6 = tree.subtreeToMarkup 1 ∧ (tree.deepCopy 1).2.node 0 = tree.node 0 := by
  have hcopy := deepCopy_faithful linked (x := 1) (by decide)
  exact ⟨linked, by decide, rfl, hcopy.lone, hcopy.numbered, hcopy.children 4 (by decide), hcopy.markup, hcopy.kept 0 (by decide)⟩

end MailMerge.Tree
