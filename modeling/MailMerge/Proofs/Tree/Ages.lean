/-
  MailMerge.Proofs.Tree.Ages — new nodes stand below older ones.

  A node's number tells its age. Let the first `n` nodes be the old ones. In a tree that is
  aged at `n` an old node stands below old nodes only, and any other node stands below nodes
  with smaller numbers. Whoever puts a node that is not old below a smaller number keeps the
  tree aged, and never puts a node below itself: the way up from the smaller number does not
  lead to the larger one. No more has to be known of copies, of what is read and of content
  that comes into a tree from elsewhere. Every linked tree is aged at its size.

  Proved: everything that makes new nodes keeps a tree aged and gives no old node a parent
  (`Grown`); copies, reading and the repair of cells move nothing that was there (`Added`).
-/

import MailMerge.Field.Scan
import MailMerge.Proofs.Markup.Growth
import MailMerge.Proofs.Tree.Copy
import MailMerge.Proofs.Tree.Lists

namespace MailMerge

namespace Tree

structure Aged (n : Nat) (t : Tree) : Prop where
  linked : t.Linked
  old : n ≤ t.size
  up : ∀ p c, t.parent c = some p → p < n ∨ p < c

/-- `u` has come from `t` by edits that keep its links aged. -/
structure Grown (n : Nat) (t u : Tree) : Prop where
  aged : Aged n u
  grows : t.size ≤ u.size
  /-- An old node that stands nowhere is not put anywhere. -/
  loose : ∀ y < n, t.parent y = none → u.parent y = none

/-- No node of `t` was moved. -/
structure Added (n : Nat) (t u : Tree) : Prop where
  aged : Aged n u
  grows : t.size ≤ u.size
  parent : ∀ y < t.size, u.parent y = t.parent y

theorem Linked.aged {t : Tree} (h : t.Linked) : Aged t.size t :=
  ⟨h, Nat.le_refl _, fun _ _ hc => Or.inl (h.parent_lt_size hc)⟩

variable {n m : Nat} {t u v : Tree}

theorem Grown.refl (h : Aged n t) : Grown n t t := ⟨h, Nat.le_refl _, fun _ _ => id⟩

theorem Grown.trans (h : Grown n t u) (h' : Grown n u v) : Grown n t v :=
  ⟨h'.aged, Nat.le_trans h.grows h'.grows, fun y hy hp => h'.loose y hy (h.loose y hy hp)⟩

theorem Added.refl (h : Aged n t) : Added n t t := ⟨h, Nat.le_refl _, fun _ _ => rfl⟩

theorem Added.trans (h : Added n t u) (h' : Added n u v) : Added n t v :=
  ⟨h'.aged, Nat.le_trans h.grows h'.grows, fun y hy => (h'.parent y (Nat.lt_of_lt_of_le hy h.grows)).trans (h.parent y hy)⟩

theorem Added.grown (h : Added n t u) (hn : n ≤ t.size) : Grown n t u :=
  ⟨h.aged, h.grows, fun y hy hp => (h.parent y (Nat.lt_of_lt_of_le hy hn)).trans hp⟩

/-! ## What ages tell -/

namespace Aged

variable (h : Aged n t)

include h

theorem parent_lt {c p : NodeId} (hnm : n ≤ m) (hc : c < m) (hp : t.parent c = some p) : p < m :=
  (h.up p c hp).elim (fun hlt => Nat.lt_of_lt_of_le hlt hnm) fun hlt => Nat.lt_trans hlt hc

theorem lt_of_within {a d : NodeId} (hnm : n ≤ m) (hd : d < m) (hw : t.Within a d) : a < m := by
  induction hw with
  | refl => exact hd
  | tail _ hc ih => exact ih (h.parent_lt hnm hd hc)

/-- Below a node that is not old all numbers are larger. -/
theorem le_of_within {x d : NodeId} (hx : n ≤ x) (hw : t.Within x d) : x ≤ d := by
  induction hw with
  | refl => exact Nat.le_refl x
  | @tail q c _ hc ih =>
    rcases h.up q c hc with hlt | hlt
    · exact absurd hlt (Nat.not_lt_of_le (Nat.le_trans hx ih))
    · exact Nat.le_trans ih (Nat.le_of_lt hlt)

/-- So a node that is not old may be put below any smaller number. -/
theorem placeable {p x : NodeId} (hx : n ≤ x) (hsize : x < t.size) (hlt : p < x) : Placeable t p x :=
  ⟨hsize, Nat.lt_trans hlt hsize, fun hw => Nat.not_lt_of_le (h.le_of_within hx hw) hlt⟩

/-! ## Single edits -/

theorem sameLinks (hsize : t.size ≤ u.size) (hp : ∀ y, u.parent y = t.parent y) (hc : ∀ y, u.children y = t.children y) :
    Added n t u where
  aged := by
    refine ⟨⟨Nat.lt_of_lt_of_le h.linked.rooted hsize, (hp root).trans h.linked.top, fun p c => ?_, fun p => ?_,
      fun p c hpc => ?_, ?_⟩, Nat.le_trans h.old hsize, fun p c hpc => h.up p c (hp c ▸ hpc)⟩
    · rw [hp, hc]; exact h.linked.linked p c
    · rw [hc]; exact h.linked.distinct p
    · obtain ⟨hlt, hlt'⟩ := h.linked.inStore p c (hp c ▸ hpc)
      exact ⟨Nat.lt_of_lt_of_le hlt hsize, Nat.lt_of_lt_of_le hlt' hsize⟩
    · simp only [hp]; exact h.linked.grounded
  grows := hsize
  parent y _ := hp y

theorem create (k : Kind) (s : Span) : Added n t (t.create k s).2 :=
  h.sameLinks (by rw [size_create]; exact Nat.le_succ _) (parent_create t k s) (children_create t k s)

theorem setKind (id : NodeId) (k : Kind) : Added n t (t.setKind id k) :=
  h.sameLinks (by rw [size_setKind]) (fun y => parent_setKind t id y k) (fun y => children_setKind t id y k)

theorem setSpan (id : NodeId) (s : Span) : Added n t (t.setSpan id s) :=
  h.sameLinks (by rw [size_setSpan]) (fun y => parent_setSpan t id y s) (fun y => children_setSpan t id y s)

theorem setAttribute (id : NodeId) (key value : String) : Added n t (t.setAttribute id key value) := by
  unfold Tree.setAttribute
  split
  · exact h.setKind id _
  · exact .refl h

theorem detach (x : NodeId) : Grown n t (t.detach x) := by
  refine ⟨⟨h.linked.detach x, by rw [size_detach]; exact h.old, fun p c hc => ?_⟩, by rw [size_detach], fun y _ hp => ?_⟩
  · rw [parent_detach] at hc
    split at hc
    · cases hc
    · exact h.up p c hc
  · rw [parent_detach]
    split
    · rfl
    · exact hp

theorem detachAll (ids : List NodeId) : Grown n t (t.detachAll ids) := by
  induction ids generalizing t with
  | nil => exact .refl h
  | cons x ids ih => exact (h.detach x).trans (ih (h.detach x).aged)

theorem unwrap (id : NodeId) : Grown n t (t.unwrap id) := by
  have hsize : (t.unwrap id).size = t.size := (relinked_unwrap t id).size
  refine ⟨⟨h.linked.unwrap id, by rw [hsize]; exact h.old, fun p c hc => ?_⟩, by rw [hsize], fun y _ hp => ?_⟩
  · rw [h.linked.parent_unwrap] at hc
    split at hc
    · cases hc
    · split at hc
      · next hid =>
        have hlt := h.up id c hid
        cases hq : t.parent id with
        | none => rw [hq] at hc; cases hc; exact hlt
        | some q =>
          rw [hq] at hc
          cases hc
          exact (h.up q id hq).elim Or.inl fun hqid => hlt.imp (Nat.lt_trans hqid) (Nat.lt_trans hqid)
      · exact h.up p c hc
  · rw [h.linked.parent_unwrap, hp]
    simp

theorem move {place : List NodeId → List NodeId} {p x : NodeId} (hx : n ≤ x) (hsize : x < t.size) (hlt : p < x)
    (hadd : Adds x ((t.children p).filter (· != x)) (place ((t.children p).filter (· != x)))) : Grown n t (t.move place p x) := by
  have hplace := h.placeable hx hsize hlt
  have hroot : x ≠ root := Nat.ne_of_gt (Nat.lt_of_le_of_lt (Nat.zero_le p) hlt)
  refine ⟨⟨h.linked.move hplace hroot hadd, by rw [size_move]; exact h.old, fun q c hc => ?_⟩, by rw [size_move], fun y hy hp => ?_⟩
  · rw [hplace.parent_move] at hc
    split at hc
    · next he => cases hc; exact Or.inr (he ▸ hlt)
    · exact h.up q c hc
  · rw [hplace.parent_move, if_neg fun (he : y = x) => Nat.not_lt_of_le hx (he ▸ hy), hp]

theorem insertBeside {place : NodeId → NodeId → List NodeId → List NodeId}
    (hplace : ∀ {anchor x l}, anchor ∈ l → Adds x l (place anchor x l)) {anchor x : NodeId} (hx : n ≤ x) (hsize : x < t.size)
    (ha : ∀ p, t.parent anchor = some p → p < x) : Grown n t (t.insertBeside place anchor x) := by
  by_cases hne : anchor = x
  · rw [hne, insertBeside_self]
    exact .refl h
  · cases hp : t.parent anchor with
    | none => rw [insertBeside_of_parent_none place hp]; exact .refl h
    | some p =>
      rw [h.linked.insertBeside_eq place hne hp]
      refine h.move hx hsize (ha p hp) (hplace (List.mem_filter.mpr ⟨h.linked.mem_of_parent hp, bne_iff_ne.mpr hne⟩))

end Aged

theorem parent_insertBeside_of_ne (place : NodeId → NodeId → List NodeId → List NodeId) (t : Tree) (anchor : NodeId)
    {x y : NodeId} (hy : y ≠ x) : (t.insertBeside place anchor x).parent y = t.parent y := by
  unfold Tree.insertBeside
  split
  · rfl
  · split
    · rfl
    · dsimp only
      split
      · rw [parent_mapChildren, parent_setParent, if_neg fun hc => hy hc.1, parent_detach_of_ne t hy]
      · exact parent_detach_of_ne t hy

/-- A node that is put beside another one gets its parent, or is not moved. -/
theorem Linked.parent_insertBeside (h : t.Linked) (place : NodeId → NodeId → List NodeId → List NodeId) (anchor : NodeId)
    {x : NodeId} (hx : x < t.size) : (t.insertBeside place anchor x).parent x = t.parent x ∨
      (t.insertBeside place anchor x).parent x = t.parent anchor := by
  by_cases hne : anchor = x
  · rw [hne, insertBeside_self]
    exact Or.inl rfl
  · cases hp : t.parent anchor with
    | none => rw [insertBeside_of_parent_none place hp]; exact Or.inl rfl
    | some p =>
      rw [h.insertBeside_eq place hne hp, Tree.move, parent_attach _ (by rw [size_detach]; exact hx), if_pos rfl]
      exact Or.inr rfl

/-- Nodes from `m` on follow a node that stands below an earlier one, and each other. -/
theorem Aged.insertAllAfter (h : Aged n t) (hnm : n ≤ m) {anchor : NodeId} {ids : List NodeId}
    (hup : ∀ y ∈ anchor :: ids, ∀ p, t.parent y = some p → p < m) (hids : ∀ x ∈ ids, m ≤ x ∧ x < t.size) :
    Grown n t (t.insertAllAfter anchor ids) := by
  induction ids generalizing t anchor with
  | nil => exact .refl h
  | cons x ids ih =>
    obtain ⟨hmx, hsize⟩ := hids x List.mem_cons_self
    have hone := h.insertBeside adds_insertAfter (Nat.le_trans hnm hmx) hsize fun p hp =>
      Nat.lt_of_lt_of_le (hup anchor List.mem_cons_self p hp) hmx
    refine hone.trans (ih hone.aged (fun y hy p hp => ?_) fun y hy => ?_)
    · have hxup := hup x (List.mem_cons_of_mem _ List.mem_cons_self)
      by_cases hyx : y = x
      · rw [hyx] at hp
        rcases h.linked.parent_insertBeside Siblings.insertAfter anchor hsize with hsame | hsame
        · exact hxup p (hsame ▸ hp)
        · exact hup anchor List.mem_cons_self p (hsame ▸ hp)
      · rw [parent_insertBeside_of_ne _ t anchor hyx] at hp
        exact hup y (List.mem_cons_of_mem _ hy) p hp
    · obtain ⟨hmy, hlt⟩ := hids y (List.mem_cons_of_mem x hy)
      exact ⟨hmy, Nat.lt_of_lt_of_le hlt hone.grows⟩

/-! ## New nodes -/

namespace Added

variable (h : Added n t u)

include h

/-- A node made since may be put anywhere. -/
theorem move {place : List NodeId → List NodeId} {p x : NodeId} (hn : n ≤ t.size) (hx : t.size ≤ x) (hsize : x < u.size) (hlt : p < x)
    (hadd : Adds x ((u.children p).filter (· != x)) (place ((u.children p).filter (· != x)))) : Added n t (u.move place p x) := by
  have hmove := h.aged.move (Nat.le_trans hn hx) hsize hlt hadd
  refine ⟨hmove.aged, Nat.le_trans h.grows hmove.grows, fun y hy => ?_⟩
  rw [(h.aged.placeable (Nat.le_trans hn hx) hsize hlt).parent_move, if_neg fun (he : y = x) => Nat.not_lt_of_le hx (he ▸ hy),
    h.parent y hy]

theorem insertBeside {place : NodeId → NodeId → List NodeId → List NodeId}
    (hplace : ∀ {anchor x l}, anchor ∈ l → Adds x l (place anchor x l)) {anchor x : NodeId} (hn : n ≤ t.size) (hx : t.size ≤ x)
    (hsize : x < u.size) (ha : ∀ p, u.parent anchor = some p → p < x) : Added n t (u.insertBeside place anchor x) := by
  have hmove := h.aged.insertBeside hplace (Nat.le_trans hn hx) hsize ha
  refine ⟨hmove.aged, Nat.le_trans h.grows hmove.grows, fun y hy => ?_⟩
  rw [parent_insertBeside_of_ne place u anchor fun (he : y = x) => Nat.not_lt_of_le hx (he ▸ hy), h.parent y hy]

end Added

/-- A new node as the last child of a node. -/
theorem Aged.createBelow (h : Aged n t) {p : NodeId} (hp : p < t.size) (k : Kind) (s : Span) :
    Added n t ((t.create k s).2.appendChild p t.size) :=
  (h.create k s).move h.old (Nat.le_refl _) (by rw [size_create]; exact Nat.lt_succ_self _) hp (adds_append _ _)

theorem Aged.parent_createBelow (h : Aged n t) {p : NodeId} (hp : p < t.size) (k : Kind) (s : Span) (y : NodeId) :
    ((t.create k s).2.appendChild p t.size).parent y = if y = t.size then some p else t.parent y := by
  have hplace : Placeable (t.create k s).2 p t.size :=
    (h.create k s).aged.placeable h.old (by rw [size_create]; exact Nat.lt_succ_self _) hp
  rw [appendChild_eq, hplace.parent_move, parent_create]

/-! ## Copies -/

/-- A copy that stands nowhere. -/
structure Copies (n : Nat) (t : Tree) (copy : NodeId) (u : Tree) : Prop extends Added n t u where
  fst : copy = t.size
  lt_size : t.size < u.size
  lone : u.parent t.size = none

theorem Aged.copyTo (h : Aged n t) (depth : Nat) (id : NodeId) :
    Copies n t (Tree.copyTo depth t id).1 (Tree.copyTo depth t id).2 := by
  induction depth generalizing t id with
  | zero =>
    refine ⟨h.create _ _, rfl, by rw [Tree.copyTo, size_create]; exact Nat.lt_succ_self _, ?_⟩
    rw [Tree.copyTo, parent_create]
    exact parent_of_size_le (Nat.le_refl _)
  | succ depth ih =>
    -- the invariant of the fold over the children
    have hfold : ∀ (todo : List NodeId) (u : Tree), Copies n t t.size u → Copies n t t.size (todo.foldl (fun u child =>
        (Tree.copyTo depth u child).2.adopt t.size (Tree.copyTo depth u child).1) u) := by
      intro todo
      induction todo with
      | nil => exact fun u hu => hu
      | cons c todo ihc =>
        intro u hu
        have hv := ih hu.aged c
        have hall := hu.toAdded.trans hv.toAdded
        have hlt : t.size < (Tree.copyTo depth u c).1 := by rw [hv.fst]; exact hu.lt_size
        have hsize : (Tree.copyTo depth u c).1 < (Tree.copyTo depth u c).2.size := by rw [hv.fst]; exact hv.lt_size
        have hone : Added n t ((Tree.copyTo depth u c).2.appendChild t.size (Tree.copyTo depth u c).1) :=
          hall.move h.old (Nat.le_of_lt hlt) hsize hlt (adds_append _ _)
        rw [← adopt_eq_appendChild (by rw [hv.fst]; exact hv.lone)] at hone
        refine ihc ((Tree.copyTo depth u c).2.adopt t.size (Tree.copyTo depth u c).1) ⟨hone, rfl, ?_, ?_⟩
        · rw [adopt_eq, size_attach]; exact Nat.lt_trans hlt hsize
        · rw [adopt_eq, parent_attach _ hsize, if_neg (Nat.ne_of_lt hlt), hv.parent _ hu.lt_size, hu.lone]
    refine hfold (t.children id) (t.create (t.kind id) (t.span id)).2 ⟨h.create _ _, rfl, ?_, ?_⟩
    · rw [size_create]; exact Nat.lt_succ_self _
    · rw [parent_create]; exact parent_of_size_le (Nat.le_refl _)

theorem Aged.deepCopy (h : Aged n t) (id : NodeId) : Copies n t (t.deepCopy id).1 (t.deepCopy id).2 := h.copyTo t.size id

/-! ## Texts -/

theorem Aged.setText (h : Aged n t) (id : NodeId) (data : String) : Grown n t (t.setText id data) := by
  unfold Tree.setText
  cases hk : t.kind id with
  | text _ => exact (h.setKind id _).grown h.old
  | cdata _ => exact (h.setKind id _).grown h.old
  | element name attributes =>
    have hlt : id < t.size := lt_size_of_isElement (by rw [isElement, name?, hk]; rfl)
    have hgone := h.detachAll (t.children id)
    exact hgone.trans ((hgone.aged.createBelow (Nat.lt_of_lt_of_le hlt hgone.grows) _ _).grown hgone.aged.old)
  | _ => exact .refl h

/-! ## Reading -/

/-- No node from `m` on stands below an earlier one. -/
def Parted (m : Nat) (t : Tree) : Prop := ∀ p c, t.parent c = some p → m ≤ c → m ≤ p

theorem Linked.parted {t : Tree} (h : t.Linked) : Parted t.size t := fun _ _ hc hle =>
  absurd (h.inStore _ _ hc).2 (Nat.not_lt_of_le hle)

theorem Parted.lt_of_within (h : Parted m t) {a d : NodeId} (ha : a < m) (hw : t.Within a d) : d < m := by
  induction hw with
  | refl => exact ha
  | tail _ hc ih => exact Nat.lt_of_not_le fun hle => Nat.not_lt_of_le (h _ _ hc hle) ih

end Tree

namespace Markup

open Tree

variable {n m : Nat} {t u : Tree}

/-- Nodes made while a text is read below nodes from `m` on. -/
structure Read (n m : Nat) (t : Tree) (path : List NodeId) (u : Tree) : Prop extends Added n t u where
  path : ∀ x ∈ path, m ≤ x ∧ x < u.size
  parted : Parted m t → Parted m u

theorem Read.refl (h : Aged n t) {path : List NodeId} (hpath : ∀ x ∈ path, m ≤ x ∧ x < t.size) : Read n m t path t :=
  ⟨.refl h, hpath, id⟩

theorem read_addNode (h : Aged n t) {p : NodeId} (hp : m ≤ p ∧ p < t.size) (k : Kind) (span : Span) {path : List NodeId}
    (hpath : ∀ x ∈ path, m ≤ x ∧ x < t.size) : Read n m t (t.size :: path) (addNode t p k span).2 := by
  have hnew := h.createBelow hp.2 k span
  have hsize : ((t.create k span).2.appendChild p t.size).size = t.size + 1 := by rw [appendChild_eq, size_move, size_create]
  refine ⟨hnew, fun x hx => ?_, fun hparted q c hc hle => ?_⟩
  · rcases List.mem_cons.mp hx with rfl | hx
    · exact ⟨Nat.le_of_lt (Nat.lt_of_le_of_lt hp.1 hp.2), hsize ▸ Nat.lt_succ_self _⟩
    · exact ⟨(hpath x hx).1, Nat.lt_of_lt_of_le (hpath x hx).2 hnew.grows⟩
  · change ((t.create k span).2.appendChild p t.size).parent c = some q at hc
    rw [h.parent_createBelow hp.2] at hc
    split at hc
    · cases hc; exact hp.1
    · exact hparted q c hc hle

theorem read_grow (h : Aged n t) {parent : NodeId} {path : List NodeId} (hp : m ≤ parent ∧ parent < t.size)
    (hpath : ∀ x ∈ path, m ≤ x ∧ x < t.size) {p : Piece} {g : Growth} (hg : growth t path p = .ok g) (span : Span) :
    Read n m t (grow parent path span t g).1 (grow parent path span t g).2 := by
  have hin : m ≤ innermost parent path ∧ innermost parent path < t.size := by
    cases path with
    | nil => exact hp
    | cons id rest => exact hpath id List.mem_cons_self
  rcases growth_cases hg with ⟨-, name, as, -, -, rfl⟩ | ⟨k, -, rfl⟩ | ⟨-, id, rest, -, rfl, rfl⟩
  · exact read_addNode h hin _ span hpath
  · have hread := read_addNode h hin k span hpath
    exact ⟨hread.toAdded, fun x hx => hread.path x (List.mem_cons_of_mem _ hx), hread.parted⟩
  · refine ⟨h.setSpan id _, fun x hx => ?_, fun hparted q c hc => ?_⟩
    · obtain ⟨hm, hlt⟩ := hpath x (List.mem_cons_of_mem id hx)
      exact ⟨hm, hlt.trans_le (by rw [grow, size_setSpan])⟩
    · rw [grow, parent_setSpan] at hc
      exact hparted q c hc

theorem read_addPieces (h : Aged n t) {parent : NodeId} {path : List NodeId} (hp : m ≤ parent ∧ parent < t.size)
    (hpath : ∀ x ∈ path, m ≤ x ∧ x < t.size) (ps : List Placed) : Read n m t [] (addPieces parent path t ps).2 := by
  induction ps generalizing t path with
  | nil => exact .refl h fun x hx => absurd hx List.not_mem_nil
  | cons p ps ih =>
    rw [addPieces]
    cases hg : growth t path p.piece with
    | error e => exact .refl h fun x hx => absurd hx List.not_mem_nil
    | ok g =>
      have hone := read_grow h hp hpath hg p.span
      have hmore := ih hone.aged ⟨hp.1, Nat.lt_of_lt_of_le hp.2 hone.grows⟩ hone.path
      exact ⟨hone.toAdded.trans hmore.toAdded, hmore.path, fun hparted => hmore.parted (hone.parted hparted)⟩

end Markup

namespace Tree

open Markup

variable {n m : Nat} {t : Tree}

/-- What is read into a node stands below it, also when reading fails. -/
theorem Aged.readInto (h : Aged n t) {parent : NodeId} (hp : m ≤ parent ∧ parent < t.size) (text : String) (source : Nat) :
    Read n m t [] (t.readInto parent text source).2 := by
  have hread : Read n m t [] (addPieces parent [] t (pieces text.toList).1).2 :=
    read_addPieces h hp (fun x hx => absurd hx List.not_mem_nil) _
  unfold Tree.readInto
  generalize pieces text.toList = found at hread ⊢
  obtain ⟨ps, broken⟩ := found
  simp only at hread ⊢
  generalize addPieces parent [] t ps = grown at hread ⊢
  obtain ⟨result, u⟩ := grown
  simp only at hread ⊢
  cases result with
  | error e => exact hread
  | ok path =>
    cases broken with
    | some b => exact hread
    | none => cases path <;> exact hread

/-! ## Cells -/

theorem Aged.fillEmptyCells (h : Aged n t) (id : NodeId) : Added n t (t.fillEmptyCells id) := by
  have hfold : ∀ (cells : List NodeId) (u : Tree), (∀ c ∈ cells, c < u.size) → Added n t u →
      Added n t (cells.foldl fillEmptyCells.fillCell u) := by
    intro cells
    induction cells with
    | nil => exact fun u _ hu => hu
    | cons c cells ih =>
      intro u hlt hu
      have hone : Added n u (fillEmptyCells.fillCell u c) := by
        unfold fillEmptyCells.fillCell
        split
        · exact .refl hu.aged
        · exact hu.aged.createBelow (hlt c List.mem_cons_self) _ _
      exact ih _ (fun c' hc' => Nat.lt_of_lt_of_le (hlt c' (List.mem_cons_of_mem c hc')) hone.grows) (hu.trans hone)
  exact hfold _ t (fun c hc => lt_size_of_isNamed (List.mem_filter.mp hc).2) (.refl h)

end Tree

end MailMerge
