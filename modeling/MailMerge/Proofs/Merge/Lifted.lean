/-
  MailMerge.Proofs.Merge.Lifted — where the nodes of a part stand while a scan is carried out.

  Statements take nodes out and put new ones in. A node that was there from the start keeps
  its name, and comes to stand under fewer and fewer of the nodes that were above it: elements
  of insertions are unwrapped, and that is all that moves it (`Lifted`).

  Proved: what one statement leaves of the older nodes (`evaluate_bystanders`), and what any
  number of them leave (`lifted_evaluateAll`).
-/

import MailMerge.Proofs.Merge.Dropped
import MailMerge.Proofs.Splice.Lifts

namespace MailMerge

open MailMerge.Tree Merge Outline

/-! ## Nodes that come to stand higher -/

namespace Tree

/-- Going up from a node one comes to `q`, with only nodes of `P` on the way. -/
inductive Climbs (t : Tree) (P : NodeId → Prop) : NodeId → NodeId → Prop
  | parent {x q : NodeId} : t.parent x = some q → Climbs t P x q
  | past {x w q : NodeId} : t.parent x = some w → P w → Climbs t P w q → Climbs t P x q

variable {P : NodeId → Prop} {t u v : Tree}

theorem Climbs.trans {x w q : NodeId} (h : t.Climbs P x w) (hw : P w) (h' : t.Climbs P w q) : t.Climbs P x q := by
  induction h with
  | parent hp => exact .past hp hw h'
  | past hp hv _ ih => exact .past hp hv (ih hw h')

theorem Climbs.within {x q : NodeId} (h : t.Climbs P x q) : t.Within q x := by
  induction h with
  | parent hp => exact within_of_parent hp
  | past hp _ _ ih => exact within_parent ih hp

/-- One comes to the parent first. -/
theorem Climbs.exists_parent {x q : NodeId} (h : t.Climbs P x q) : ∃ w, t.parent x = some w ∧ t.Within q w := by
  cases h with
  | parent hp => exact ⟨q, hp, within_refl t q⟩
  | past hp _ hwq => exact ⟨_, hp, hwq.within⟩

theorem Climbs.lt_size (ht : t.WellFormed) {x q : NodeId} (h : t.Climbs P x q) : q < t.size := by
  induction h with
  | parent hp => exact ht.parent_lt_size hp
  | past _ _ _ ih => exact ih

/-- A node above that is not in `P` is not passed by. -/
theorem Climbs.within_of_not {x q y : NodeId} (h : t.Climbs P x q) (hy : t.Within y x) (hne : y ≠ x) (hP : ¬ P y) :
    t.Within y q := by
  induction h with
  | parent hp => exact within_parent_of_ne hy (Ne.symm hne) hp
  | past hp hw _ ih => exact ih (within_parent_of_ne hy (Ne.symm hne) hp) fun he => hP (he ▸ hw)

/-- The nodes of `t` are still there under their names, and above each there are fewer of the
    nodes that were above it; what is missing in between is in `P`. -/
structure Lifted (P : NodeId → Prop) (t u : Tree) : Prop where
  grows : t.size ≤ u.size
  name : ∀ x < t.size, u.name? x = t.name? x
  up : ∀ x < t.size, ∀ q, u.parent x = some q → t.Climbs P x q

theorem Lifted.refl (P : NodeId → Prop) (t : Tree) : Lifted P t t :=
  ⟨Nat.le_refl _, fun _ _ => rfl, fun _ _ _ hp => .parent hp⟩

/-- One more step that moves nodes only out of nodes of `P`. -/
theorem Lifted.next (h : Lifted P t u) (ht : t.WellFormed) (hg : u.size ≤ v.size)
    (hname : ∀ x < t.size, v.name? x = u.name? x)
    (hp : ∀ x < t.size, ∀ p, v.parent x = some p →
      u.parent x = some p ∨ ∃ w, P w ∧ u.parent x = some w ∧ u.parent w = some p) : Lifted P t v where
  grows := Nat.le_trans h.grows hg
  name x hx := (hname x hx).trans (h.name x hx)
  up x hx q hq := by
    rcases hp x hx q hq with hq | ⟨w, hw, hxw, hwq⟩
    · exact h.up x hx q hq
    · have hxw := h.up x hx w hxw
      exact hxw.trans hw (h.up w (hxw.lt_size ht) q hwq)

theorem Lifted.within (h : Lifted P t u) (ht : t.WellFormed) {a x : NodeId} (hx : x < t.size) (hw : u.Within a x) :
    t.Within a x := by
  induction hw with
  | refl => exact within_refl t a
  | @tail q z _ hz ih =>
    have hc := h.up z hx q hz
    exact within_trans (ih (hc.lt_size ht)) hc.within

/-- What was above a node that is still below `z`, and is not in `P`, is above it still. -/
theorem Lifted.within_of_top (h : Lifted P t u) (ht : t.WellFormed) {z : NodeId} (hz : t.parent z = none) {x y : NodeId}
    (hx : x < t.size) (hw : u.Within z x) (hy : t.Within y x) (hP : ¬ P y) : u.Within y x := by
  induction hw with
  | refl =>
    rw [within_of_parent_none hz hy]
    exact within_refl u z
  | @tail q x _ hq ih =>
    by_cases hyx : y = x
    · exact hyx ▸ within_refl u y
    · have hc := h.up x hx q hq
      exact within_parent (ih (hc.lt_size ht) (hc.within_of_not hy hyx hP)) hq

theorem Lifted.within_of_root (h : Lifted P t u) (ht : t.WellFormed) {x y : NodeId} (hx : x < t.size)
    (hroot : u.Within root x) (hy : t.Within y x) (hP : ¬ P y) : u.Within y x := h.within_of_top ht ht.top hx hroot hy hP

end Tree

/-! ## Pictures that are aimed -/

namespace Statement

variable (image : Image) (rid : String)

theorem name?_aimAt (t : Tree) (id x : NodeId) : (aimAt image rid t id).name? x = t.name? x := by
  unfold aimAt
  split
  · exact name?_setAttribute _ _ _ _ _
  · split
    · exact name?_setAttribute _ _ _ _ _
    · rfl

theorem name?_foldl_aimAt (ids : List NodeId) (t : Tree) (x : NodeId) :
    (ids.foldl (aimAt image rid) t).name? x = t.name? x := by
  induction ids generalizing t with
  | nil => rfl
  | cons id ids ih => rw [List.foldl_cons, ih, name?_aimAt]

theorem kind_aimAt_of_ne (t : Tree) {id x : NodeId} (hx : x ≠ id) : (aimAt image rid t id).kind x = t.kind x := by
  unfold aimAt
  split
  · exact kind_setAttribute_of_ne hx _ _
  · split
    · exact kind_setAttribute_of_ne hx _ _
    · rfl

theorem kind_foldl_aimAt (t : Tree) {ids : List NodeId} {x : NodeId} (hx : x ∉ ids) :
    (ids.foldl (aimAt image rid) t).kind x = t.kind x := by
  induction ids generalizing t with
  | nil => rfl
  | cons id ids ih =>
    rw [List.mem_cons, not_or] at hx
    rw [List.foldl_cons, ih _ hx.2, kind_aimAt_of_ne image rid t hx.1]

/-- Other elements than those of pictures are not changed. -/
theorem kind_aimAt_of_name (t : Tree) (id : NodeId) {x : NodeId} (hp : t.isNamed Word.pictureProperties x = false)
    (hb : t.isNamed Word.blip x = false) : (aimAt image rid t id).kind x = t.kind x := by
  by_cases hx : x = id
  · subst hx
    unfold aimAt
    rw [hp, hb]
    rfl
  · exact kind_aimAt_of_ne image rid t hx

theorem kind_foldl_aimAt_of_name (ids : List NodeId) (t : Tree) {x : NodeId}
    (hp : t.isNamed Word.pictureProperties x = false) (hb : t.isNamed Word.blip x = false) :
    (ids.foldl (aimAt image rid) t).kind x = t.kind x := by
  induction ids generalizing t with
  | nil => rfl
  | cons id ids ih =>
    have hname := name?_aimAt image rid t id x
    rw [List.foldl_cons, ih _ ((isNamed_of_name? hname _).trans hp) ((isNamed_of_name? hname _).trans hb),
      kind_aimAt_of_name image rid t id hp hb]

theorem relationship_eq (s : Session) : ∃ media, relationship image s =
    (.ok (image.rid.getD (s.env.media.register image).1), { s with env := { s.env with media } }) := by
  unfold relationship
  cases image.rid with
  | some rid => exact ⟨s.env.media, rfl⟩
  | none => exact ⟨_, rfl⟩

/-- A picture directive aims at its image all that its block reaches. -/
theorem tree_showPicture_image (o : Operand) (b : Block) (s : Session) :
    (showPicture o b (.content (.image image)) s).2.tree =
      aimPictures image (image.rid.getD (s.env.media.register image).1) b s.tree := by
  obtain ⟨media, hrel⟩ := relationship_eq image s
  rw [showPicture, run_bind, hrel]
  rfl

theorem showPicture_bystanders (o : Operand) (b : Block) (v : Value) (s : Session) (x : NodeId) :
    (showPicture o b v s).2.tree.name? x = s.tree.name? x ∧
      (x ∉ b.nodes.flatMap s.tree.subtree → (showPicture o b v s).2.tree.kind x = s.tree.kind x) := by
  cases v with
  | content c =>
    cases c with
    | image image =>
      rw [tree_showPicture_image]
      exact ⟨name?_foldl_aimAt image _ _ _ x, kind_foldl_aimAt image _ _⟩
    | _ => exact ⟨rfl, fun _ => rfl⟩
  | _ => exact ⟨rfl, fun _ => rfl⟩

theorem kind_showPicture_of_name (o : Operand) (b : Block) (v : Value) (s : Session) {x : NodeId}
    (hp : s.tree.isNamed Word.pictureProperties x = false) (hb : s.tree.isNamed Word.blip x = false) :
    (showPicture o b v s).2.tree.kind x = s.tree.kind x := by
  cases v with
  | content c =>
    cases c with
    | image image =>
      rw [tree_showPicture_image]
      exact kind_foldl_aimAt_of_name image _ _ _ hp hb
    | _ => rfl
  | _ => rfl

end Statement

/-! ## Statements and what they do not reach -/

theorem Block.kind_giveWay (b : Block) (content : List NodeId) (s : Session) (x : NodeId) :
    (b.giveWay content s).2.tree.kind x = s.tree.kind x := by
  rw [run_giveWay, replace_eq]
  show ((s.tree.insertAllAfter b.startNode content).detachAll (b.leaving s.ledger)).kind x = _
  rw [kind_detachAll, kind_insertAllAfter]

theorem Block.kind_dropAll (bs : List Block) (s : Session) (x : NodeId) : (dropAll bs s).tree.kind x = s.tree.kind x := by
  induction bs generalizing s with
  | nil => rfl
  | cons b bs ih =>
    show (dropAll bs (b.giveWay [] s).2).tree.kind x = _
    rw [ih, kind_giveWay]

namespace Statement

/-- The elements that a statement may unwrap. -/
def Unwraps (st : Statement) (w : NodeId) : Prop := ∃ f o, st = .insertion f o ∧ f.Wraps w

/-- The nodes that a picture directive reaches. -/
def Reaches (st : Statement) (t : Tree) (x : NodeId) : Prop := ∃ o b, st = .picture o b ∧ ∃ y ∈ b.nodes, t.Within y x

variable {expand : NodeId → Merge Unit} (hexp : Expands expand) {s s' : Session} (h : s.tree.WellFormed) {st : Statement}
  (hown : st.Owned (fun x => 0 ≤ x) s.tree) (hrun : st.evaluate expand s = (.ok (), s'))

include hexp h hown hrun

/-- Older nodes keep their names, move only out of what is unwrapped, and change only if a
    picture directive reaches them. -/
theorem evaluate_bystanders {x : NodeId} (hx : x < s.tree.size) :
    s'.tree.name? x = s.tree.name? x ∧ (¬ st.Reaches s.tree x → s'.tree.kind x = s.tree.kind x) ∧
      ∀ p, s'.tree.parent x = some p →
        s.tree.parent x = some p ∨ ∃ w, st.Unwraps w ∧ s.tree.parent x = some w ∧ s.tree.parent w = some p := by
  have hparent : (∀ f o, st ≠ .insertion f o) → ∀ p, s'.tree.parent x = some p →
      s.tree.parent x = some p ∨ ∃ w, st.Unwraps w ∧ s.tree.parent x = some w ∧ s.tree.parent w = some p := by
    intro hst p hp
    rw [parent_evaluate hexp h hst hown hrun hx] at hp
    split at hp
    · cases hp
    · exact Or.inl hp
  rcases evaluate_cases hrun with ⟨f, o, v, rfl, -, hins⟩ | ⟨before, b, after, content, made, hm⟩ | ⟨o, b, v, made, rfl, hshow, rfl⟩ | rfl
  · have hf := hown.field f o rfl
    have hlift := lifts_insert h (Nat.le_refl _) hf (hf f.first f.first_mem_anchors).2.lt_size v
    rw [hins] at hlift
    refine ⟨name?_congr (hlift.kind x hx), fun _ => hlift.kind x hx, fun p hp => ?_⟩
    refine (hlift.parent x hx p hp).imp_right ?_
    rintro ⟨w, hw, hxw⟩
    exact ⟨w, ⟨f, o, rfl, hw⟩, hxw⟩
  · have hne : ∀ f o, st ≠ .insertion f o := by
      rintro f o rfl
      cases hm
    obtain ⟨hed, -⟩ := hm.fresh hexp h (hown.blocks b (by rw [hm.blocks]; simp))
    have hrun' := hrun
    rw [hm.run_evaluate] at hrun'
    cases hrun'
    have hkind : (Block.dropAll after (b.giveWay content (Block.dropAll before made)).2).tree.kind x = s.tree.kind x := by
      rw [Block.kind_dropAll, Block.kind_giveWay, Block.kind_dropAll, hed.tree.kind_eq hx]
    exact ⟨name?_congr hkind, fun _ => hkind, hparent hne⟩
  · obtain ⟨hname, hkind⟩ := showPicture_bystanders o b v s x
    rw [hshow] at hname hkind
    have hdrop := Block.kind_dropAll [b] made x
    refine ⟨(name?_congr hdrop).trans hname, fun hno => hdrop.trans (hkind fun hmem => ?_), hparent fun _ _ => nofun⟩
    obtain ⟨y, hy, hyx⟩ := List.mem_flatMap.mp hmem
    exact hno ⟨o, b, rfl, y, hy, h.mem_subtree.mp hyx⟩
  · have hdrop := Block.kind_dropAll st.blocks s x
    refine ⟨name?_congr hdrop, fun _ => hdrop, fun p hp => ?_⟩
    rw [Block.parent_dropAll] at hp
    split at hp
    · cases hp
    · exact Or.inl hp

/-- Older nodes that are no elements of pictures stay as they are. -/
theorem kind_evaluate {x : NodeId} (hx : x < s.tree.size) (hp : s.tree.isNamed Word.pictureProperties x = false)
    (hb : s.tree.isNamed Word.blip x = false) : s'.tree.kind x = s.tree.kind x := by
  by_cases hst : ∃ o b, st = .picture o b
  · obtain ⟨o, b, rfl⟩ := hst
    rcases evaluate_cases hrun with ⟨f, o', v, he, -⟩ | ⟨before, b', after, content, made, hm⟩ | ⟨o', b', v, made, he, hshow, rfl⟩ | rfl
    · cases he
    · cases hm
    · have hkind := kind_showPicture_of_name o' b' v s hp hb
      rw [hshow] at hkind
      exact (Block.kind_dropAll [b'] made x).trans hkind
    · exact Block.kind_dropAll _ s x
  · exact (evaluate_bystanders hexp h hown hrun hx).2.1 fun ⟨o, b, he, _⟩ => hst ⟨o, b, he⟩

theorem lifted_evaluate : Lifted st.Unwraps s.tree s'.tree := by
  have hed := edits_evaluate hexp (fenced_zero h) hown fun _ _ hx => hx
  rw [hrun] at hed
  refine (Lifted.refl _ s.tree).next h hed.tree.grows (fun x hx => (evaluate_bystanders hexp h hown hrun hx).1) fun x hx p hp => ?_
  exact ((evaluate_bystanders hexp h hown hrun hx).2.2 p hp)

end Statement

/-- Statements carried out on a tree that the nodes of `t` have been lifted in. -/
theorem lifted_evaluateAll {expand : NodeId → Merge Unit} (hexp : Expands expand) {t : Tree} (ht : t.WellFormed)
    {P : NodeId → Prop} {sts : List Statement} (hP : ∀ st ∈ sts, ∀ w, st.Unwraps w → P w) {s s' : Session}
    (h : s.tree.WellFormed) (hlift : Lifted P t s.tree) (hown : ∀ st ∈ sts, st.Owned (fun x => 0 ≤ x) s.tree)
    (hrun : Statement.evaluateAll expand sts s = (.ok (), s')) :
    Lifted P t s'.tree ∧ ∀ x < t.size, (∀ st ∈ sts, ¬ st.Reaches t x) → s'.tree.kind x = s.tree.kind x := by
  induction sts generalizing s with
  | nil =>
    cases hrun
    exact ⟨hlift, fun _ _ _ => rfl⟩
  | cons st sts ih =>
    have hst := hown st List.mem_cons_self
    obtain ⟨s₁, hone, hrest⟩ := Statement.evaluateAll_cons_eq_ok hrun
    have hed := (edits_evaluate hexp (fenced_zero h) hst fun _ _ hx => hx).tree
    rw [hone] at hed
    have hold : ∀ {x}, x < t.size → x < s.tree.size := fun hx => Nat.lt_of_lt_of_le hx hlift.grows
    have hnext : Lifted P t s₁.tree := by
      refine hlift.next ht hed.grows (fun x hx => (Statement.evaluate_bystanders hexp h hst hone (hold hx)).1)
        fun x hx p hp => ?_
      refine ((Statement.evaluate_bystanders hexp h hst hone (hold hx)).2.2 p hp).imp_right ?_
      rintro ⟨w, hw, hxw⟩
      exact ⟨w, hP st List.mem_cons_self w hw, hxw⟩
    obtain ⟨hlast, hkind⟩ := ih (fun st' hst' => hP st' (List.mem_cons_of_mem st hst')) hed.wellFormed hnext
      (fun st' hst' => (hown st' (List.mem_cons_of_mem st hst')).edited hed) hrest
    refine ⟨hlast, fun x hx hno => (hkind x hx fun st' hst' => hno st' (List.mem_cons_of_mem st hst')).trans ?_⟩
    refine (Statement.evaluate_bystanders hexp h hst hone (hold hx)).2.1 ?_
    rintro ⟨o, b, rfl, y, hy, hw⟩
    exact hno _ List.mem_cons_self ⟨o, b, rfl, y, hy, hlift.within ht hx hw⟩

/-- What carrying out the statements of a scan of `t` keeps. -/
structure InScan (P : NodeId → Prop) (t : Tree) (ss : List Statement) (env : Environment) (s : Session) : Prop where
  wellFormed : s.tree.WellFormed
  lifted : Lifted P t s.tree
  owned : ∀ st ∈ ss, st.Owned (fun x => 0 ≤ x) s.tree
  env : s.env.Alike env

theorem InScan.next {expand : NodeId → Merge Unit} (hexp : Expands expand) {P : NodeId → Prop} {t : Tree} (ht : t.WellFormed)
    {ss : List Statement} (hP : ∀ st ∈ ss, ∀ w, st.Unwraps w → P w) {env : Environment} {s s' : Session}
    (h : InScan P t ss env s) {st : Statement} (hst : st ∈ ss) (hrun : st.evaluate expand s = (.ok (), s')) :
    InScan P t ss env s' := by
  have hed := edits_evaluate hexp (fenced_zero h.wellFormed) (h.owned st hst) fun _ _ hx => hx
  rw [hrun] at hed
  have hone : Statement.evaluateAll expand [st] s = (.ok (), s') := by
    rw [Statement.run_evaluateAll_cons, hrun]
    rfl
  have hsingle : ∀ st' ∈ [st], st' = st := fun _ => List.mem_singleton.mp
  exact ⟨hed.tree.wellFormed,
    (lifted_evaluateAll hexp ht (fun st' hst' => hsingle st' hst' ▸ hP st hst) h.wellFormed h.lifted
      (fun st' hst' => hsingle st' hst' ▸ h.owned st hst) hone).1,
    fun st' hst' => (h.owned st' hst').edited hed.tree, hed.env.trans h.env⟩

/-! ## Table cells that are repaired -/

theorem stays_fillEmptyCells (t : Tree) (id : NodeId) : Stays t.size t (t.fillEmptyCells id) := by
  have hcell : ∀ {u : Tree} (cell : NodeId), t.size ≤ u.size → Stays t.size u (fillEmptyCells.fillCell u cell) := by
    intro u cell hu
    unfold fillEmptyCells.fillCell
    split
    · exact .refl _ u
    · exact stays_createBelow hu _ _ cell
  unfold fillEmptyCells
  generalize (t.descendants id).filter (t.isNamed Word.tableCell) = cells
  have hfold : ∀ (cells : List NodeId) (u : Tree), Stays t.size t u →
      Stays t.size t (cells.foldl fillEmptyCells.fillCell u) := by
    intro cells
    induction cells with
    | nil => exact fun _ hu => hu
    | cons cell cells ih => exact fun u hu => ih _ (hu.trans (hcell cell hu.grows))
  exact hfold cells t (.refl _ t)

/-- Repairing table cells keeps a tree well formed. -/
theorem edited_fillEmptyCells {t : Tree} (h : t.WellFormed) (id : NodeId) : Beyond 0 t (t.fillEmptyCells id) := by
  have hcells : ∀ x ∈ (t.descendants id).filter (t.isNamed Word.tableCell), t.isElement x = true := fun x hx =>
    isElement_of_isNamed (List.mem_filter.mp hx).2
  unfold fillEmptyCells
  generalize (t.descendants id).filter (t.isNamed Word.tableCell) = cells at hcells
  have hfold : ∀ (cells : List NodeId) (u : Tree), (∀ x ∈ cells, t.isElement x = true) → Beyond 0 t u →
      Beyond 0 t (cells.foldl fillEmptyCells.fillCell u) := by
    intro cells
    induction cells with
    | nil => exact fun _ _ hu => hu
    | cons cell cells ih =>
      intro u hin hu
      refine ih _ (fun x hx => hin x (List.mem_cons_of_mem cell hx)) (hu.trans ?_)
      unfold fillEmptyCells.fillCell
      split
      · exact .refl hu.zone
      · exact hu.zone.createBelow (Nat.zero_le cell) (hosts_of_isElement (hu.element cell (hin cell List.mem_cons_self))) _ _
  exact hfold cells t hcells (.refl (fenced_zero h))

theorem Tree.Stays.lifted {t u : Tree} (h : Stays t.size t u) (P : NodeId → Prop) : Lifted P t u :=
  ⟨h.grows, fun x hx => name?_congr (h.kind x hx), fun x hx p hp => .parent (h.parent x hx p hp)⟩

end MailMerge
