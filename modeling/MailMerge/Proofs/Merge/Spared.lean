/-
  MailMerge.Proofs.Merge.Spared — bodies that wait for being copied.

  The statements of a scan are carried out one after the other, and each works on the tree that
  those before it have left. A block may be copied late. By then its body may be out of the
  part, because a boundary that contains it has been given up; but in itself it is as it was at
  the time of the scan, if no field stands in another one. Insertions stand beside it, what
  leaves with another block stands beside it, and pictures get other attributes only.

  Proved: no statement of a scan changes a body that is to be copied (`spares_evaluate`), so
  none of those carried out before has (`spares_evaluateAll`).
-/

import MailMerge.Proofs.Merge.Lifted
import MailMerge.Proofs.Tree.Spared

namespace MailMerge

open MailMerge.Tree Merge Outline

/-! ## Values in the place of fields -/

section fields

variable {S D : NodeId → Prop} {t : Tree} (h : Zone S (fun x => ¬ D x) t) (hdown : ∀ p c, t.parent c = some p → D p → D c)

include h hdown

theorem Splice.spares_putElements {container : NodeId} (hc : S container) (hlt : container < t.size) {ids : List NodeId}
    (hids : ∀ x ∈ ids, t.parent x = some container) {f : Field} (hf : f.Owned S t)
    (hapart : ∀ a ∈ f.anchors, ∀ x, t.Within container x → ¬ t.Within a x) : Spares D t (putElements f ids t) := by
  rcases putElements_cases h hc hlt hids hf hapart with hed | ⟨u, run, paragraph, hed, hrun, hloose, ha, he⟩
  · exact hed.spares fun x hx hno => hno hx
  have hloc : Spares D t u := hed.spares fun x hx hno => hno hx
  obtain ⟨-, hw, -, -⟩ := hed.wellFormed.findAncestor?_eq_some ha
  -- a paragraph below a node to be spared would be around a run to be spared
  have hout : ∀ p, D p → u.parent paragraph ≠ some p := by
    intro p hp hpar
    have hbelow : ∀ {x}, u.Within p x → D x := by
      intro x hx
      induction hx with
      | refl => exact hp
      | tail _ hz ih => exact hdown _ _ ((hloc.parent_iff h.wellFormed hed.wellFormed ih).mp hz) ih
    exact hed.zone.sub run hrun.owned (hbelow (within_trans (within_of_parent hpar) hw))
  have hins : Spares D u (u.insertAllAfter paragraph ids) := spares_insertAllAfter hout fun x hx p hp => by
    have hne : u.parent x ≠ some p := by
      rw [hloose.parent x hx]
      rintro ⟨⟩
      exact h.sub _ hc hp
    exact ⟨hne, fun hmem => hne (hed.wellFormed.parent_of_mem hmem)⟩
  have hcut : Spares D (u.insertAllAfter paragraph ids) ((u.insertAllAfter paragraph ids).detachAll [paragraph]) :=
    spares_detachAll fun x hx p hp hmem => by
      obtain rfl := List.mem_singleton.mp hx
      rw [hins.children p hp] at hmem
      exact hout p hp (hed.wellFormed.parent_of_mem hmem)
  rw [he]
  exact (hloc.trans hins).trans hcut

theorem Splice.spares_putMarkup {f : Field} (hf : f.Owned S t) (source : String) : Spares D t (putMarkup f source t).2 := by
  obtain ⟨u, hu, hput⟩ := putMarkup_cases h.wellFormed f source
  have hed : Edited S (fun x => ¬ D x) t u := hu.beyond.edited h h.fresh
  have hread : Spares D t u := hed.spares fun x hx hno => hno hx
  rcases hput with ⟨e, he⟩ | he
  · rw [he]
    exact hread
  · rw [he]
    refine hread.trans (spares_putElements hed.zone (fun p c hc hp => ?_) (h.fresh _ (Nat.le_refl _)) hu.hosts.lt_size hu.parent
      (hed.owned hf) fun a ha => hu.apart (hf a ha).2.lt_size)
    exact hdown p c ((hread.parent_iff h.wellFormed hed.wellFormed hp).mp hc) hp

end fields

theorem Statement.spares_insert {S D : NodeId → Prop} {s : Session} (h : Zone S (fun x => ¬ D x) s.tree)
    (hdown : ∀ p c, s.tree.parent c = some p → D p → D c) {f : Field} (hf : f.Owned S s.tree) (v : Value) :
    Spares D s.tree (insert f v s).2.tree := by
  have htext : ∀ text, Spares D s.tree (Splice.putText f text s.tree) := fun text =>
    (Splice.edited_putText h hf text).spares fun x hx hno => hno hx
  have hnone : Spares D s.tree (f.remove s.tree) := (edited_remove h hf).spares fun x hx hno => hno hx
  cases v with
  | nil => exact hnone
  | boolean b =>
    cases b with
    | false => exact hnone
    | true => exact htext _
  | content c =>
    cases c with
    | text t => exact htext t
    | image i => exact hnone
    | markup source =>
      have hput := Splice.spares_putMarkup h hdown hf source
      rw [Statement.insert, run_bind_ok (run_withTree _ s)]
      generalize Splice.putMarkup f source s.tree = put at hput ⊢
      obtain ⟨result, u⟩ := put
      cases result <;> exact hput
  | _ => exact htext _

/-! ## Blocks that give way -/

namespace Block

/-- No node of `D` is right above what leaves with the block, or above the place of its content. -/
structure ClearOf (b : Block) (D : NodeId → Prop) (t : Tree) : Prop where
  place : ∀ p, D p → t.parent b.startNode ≠ some p
  leaving : ∀ l, ∀ x ∈ b.leaving l, ∀ p, D p → x ∉ t.children p

variable {D : NodeId → Prop} {b : Block} {t u : Tree}

theorem ClearOf.spared (hb : b.ClearOf D t) (h : Spares D t u) (hp : ∀ p, D p → u.parent b.startNode = some p → t.parent b.startNode = some p) :
    b.ClearOf D u where
  place p hD hs := hb.place p hD (hp p hD hs)
  leaving l x hx p hD := by rw [h.children p hD]; exact hb.leaving l x hx p hD

theorem exists_leaving {bs : List Block} {l : Ledger} {x : NodeId} (hx : x ∈ leavingAll bs l) : ∃ b ∈ bs, ∃ l', x ∈ b.leaving l' := by
  induction bs generalizing l with
  | nil => cases hx
  | cons b bs ih =>
    rcases List.mem_append.mp hx with hx | hx
    · exact ⟨b, List.mem_cons_self, l, hx⟩
    · obtain ⟨b', hb', l', hx⟩ := ih hx
      exact ⟨b', List.mem_cons_of_mem b hb', l', hx⟩

theorem tree_dropAll (bs : List Block) (s : Session) : (dropAll bs s).tree = s.tree.detachAll (leavingAll bs s.ledger) := by
  induction bs generalizing s with
  | nil => rfl
  | cons b bs ih =>
    show (dropAll bs (b.giveWay [] s).2).tree = _
    rw [ih, ledger_giveWay, run_giveWay, replace_eq, leavingAll, detachAll_append]
    rfl

theorem spares_dropAll {bs : List Block} {s : Session} (hbs : ∀ b ∈ bs, b.ClearOf D s.tree) : Spares D s.tree (dropAll bs s).tree := by
  rw [tree_dropAll]
  refine spares_detachAll fun x hx => ?_
  obtain ⟨b, hb, l, hx⟩ := exists_leaving hx
  exact (hbs b hb).leaving l x hx

theorem spares_giveWay {s : Session} (hb : b.ClearOf D s.tree) {content : List NodeId}
    (hc : ∀ x ∈ content, ∀ p, D p → s.tree.parent x ≠ some p ∧ x ∉ s.tree.children p) :
    Spares D s.tree (b.giveWay content s).2.tree := by
  have hput : Spares D s.tree (s.tree.insertAllAfter b.startNode content) := spares_insertAllAfter hb.place hc
  rw [run_giveWay, replace_eq]
  refine hput.trans (spares_detachAll fun x hx p hp => ?_)
  rw [hput.children p hp]
  exact hb.leaving _ x hx p hp

/-- One of the blocks is given content that stands nowhere, the others give way to nothing. -/
theorem spares_hand {before after : List Block} {s : Session} (h : s.tree.WellFormed)
    (hbs : ∀ b' ∈ before ++ b :: after, b'.ClearOf D s.tree) {content : List NodeId} (hc : ∀ x ∈ content, s.tree.parent x = none) :
    Spares D s.tree (dropAll after (b.giveWay content (dropAll before s)).2).tree := by
  have hb := hbs b (by simp)
  have hbefore : Spares D s.tree (dropAll before s).tree := spares_dropAll fun b' hb' => hbs b' (List.mem_append_left _ hb')
  have hnew : ∀ x ∈ content, ∀ p, (dropAll before s).tree.parent x ≠ some p := by
    intro x hx p hp
    have hp := parent_of_dropAll hp
    rw [hc x hx] at hp
    cases hp
  have hgive := spares_giveWay (hb.spared hbefore fun p _ => parent_of_dropAll) fun x hx p hp => ⟨hnew x hx p, fun hmem => by
    rw [hbefore.children p hp] at hmem
    have hpx := h.parent_of_mem hmem
    rw [hc x hx] at hpx
    cases hpx⟩
  have htwo := hbefore.trans hgive
  rw [tree_dropAll]
  refine htwo.trans (spares_detachAll fun x hx p hp => ?_)
  obtain ⟨b', hb', l, hx⟩ := exists_leaving hx
  rw [htwo.children p hp]
  exact (hbs b' (List.mem_append_right _ (List.mem_cons_of_mem b hb'))).leaving l x hx p hp

end Block

/-! ## Pictures -/

namespace Statement

theorem children_foldl_aimAt (image : Image) (rid : String) (ids : List NodeId) (t : Tree) (x : NodeId) :
    (ids.foldl (aimAt image rid) t).children x = t.children x := by
  induction ids generalizing t with
  | nil => rfl
  | cons id ids ih =>
    rw [List.foldl_cons, ih]
    unfold aimAt
    split
    · exact children_setAttribute _ _ _ _ _
    · split
      · exact children_setAttribute _ _ _ _ _
      · rfl

theorem spares_showPicture (D : NodeId → Prop) (o : Operand) (b : Block) (v : Value) (s : Session) :
    Spares D s.tree (showPicture o b v s).2.tree where
  reads x _ := ⟨(showPicture_bystanders o b v s x).1, kind_showPicture_of_name o b v s⟩
  children x _ := by
    cases v with
    | content c =>
      cases c with
      | image image =>
        rw [tree_showPicture_image]
        exact children_foldl_aimAt image _ _ _ x
      | _ => rfl
    | _ => rfl

/-- A statement with blocks changes only what its blocks stand in. -/
theorem spares_blocks {expand : NodeId → Merge Unit} (hexp : Expands expand) {D : NodeId → Prop} {s s' : Session}
    (h : s.tree.WellFormed) (hD : ∀ x, D x → x < s.tree.size) {st : Statement} (hown : st.Owned (fun x => 0 ≤ x) s.tree)
    (hclear : ∀ b ∈ st.blocks, b.ClearOf D s.tree) (hne : ∀ f o, st ≠ .insertion f o)
    (hrun : st.evaluate expand s = (.ok (), s')) : Spares D s.tree s'.tree := by
  rcases evaluate_cases hrun with ⟨f, o, v, rfl, -, -⟩ | ⟨before, b, after, content, made, hm⟩ | ⟨o, b, v, made, rfl, hshow, rfl⟩ | rfl
  · exact absurd rfl (hne f o)
  · obtain ⟨hed, hfresh⟩ := hm.fresh hexp h (hown.blocks b (by rw [hm.blocks]; simp))
    have hmade : Spares D s.tree made.tree := hed.tree.spares hD
    rw [hm.run_evaluate] at hrun
    cases hrun
    refine hmade.trans (Block.spares_hand hed.tree.wellFormed (fun b' hb' => ?_) fun x hx => (hfresh x hx).2.2)
    rw [← hm.blocks] at hb'
    exact (hclear b' hb').spared hmade fun p hp => (hmade.parent_iff h hed.tree.wellFormed hp).mp
  · have hshown := spares_showPicture D o b v s
    have hparent := (showPicture_spec o b v s).2
    rw [hshow] at hshown hparent
    refine hshown.trans (Block.spares_dropAll fun b' hb' => ?_)
    exact (hclear b' hb').spared hshown fun p _ hp => (hparent _).symm.trans hp
  · exact Block.spares_dropAll hclear

end Statement

/-! ## Statements of a scan -/

section scan

variable {r : Registry} {t : Tree} (h : t.WellFormed) {id : NodeId} {ss : List Statement} (ho : Outlined r t (t.fields id) ss)
  (hap : Apart t (ss.flatMap topFields)) {b₀ : Block} (hb₀ : b₀ ∈ ss.flatMap Statement.blocks) (hk : b₀.kind ≠ .image)

include h ho hap hb₀ hk

/-- No block is in the way of a body. -/
theorem Outline.Outlined.clearOf {b : Block} (hb : b ∈ ss.flatMap Statement.blocks) : b.ClearOf (t.Under b₀.body) t where
  place := by
    rintro p ⟨x, hx, hxp⟩ hp
    exact ho.not_within_body h hb₀ hap hb hk hx (within_parent hxp hp)
  leaving := by
    rintro l y hy p ⟨x, hx, hxp⟩ hmem
    exact ho.leaving_not_below_body h hb₀ hap hb hk hy (h.parent_of_mem hmem) hx hxp

omit hap hk in
theorem Outline.Outlined.lt_size_of_under {x : NodeId} (hx : t.Under b₀.body x) : x < t.size := by
  obtain ⟨n, hn, hw⟩ := hx
  obtain ⟨st, hst, hbst⟩ := List.mem_flatMap.mp hb₀
  have hown := Tree.Zone.owned_statements (fenced_zero h) (fun _ hx => hx) (Nat.zero_le id) ho st hst
  exact (fenced_size h).lt_of_within ((hown.blocks b₀ hbst).body n hn).2.2 hw

variable {P : NodeId → Prop} {env : Environment} {expand : NodeId → Merge Unit} (hexp : Expands expand)

include hexp

/-- What is below a body that is to be copied is not changed when a statement is carried out. -/
theorem Statement.spares_evaluate {s s' : Session} (hs : InScan P t ss env s) (hsp : Spares (t.Under b₀.body) t s.tree) {st : Statement}
    (hst : st ∈ ss) (hrun : st.evaluate expand s = (.ok (), s')) : Spares (t.Under b₀.body) s.tree s'.tree := by
  have hlt : ∀ x, t.Under b₀.body x → x < t.size := fun x => ho.lt_size_of_under h hb₀
  have hlt' : ∀ x, t.Under b₀.body x → x < s.tree.size := fun x hx => Nat.lt_of_lt_of_le (hlt x hx) hs.lifted.grows
  have hown := hs.owned st hst
  have hclear : ∀ b ∈ st.blocks, b.ClearOf (t.Under b₀.body) s.tree := fun b hb =>
    (ho.clearOf h hap hb₀ hk (List.mem_flatMap.mpr ⟨st, hst, hb⟩)).spared hsp fun p hp => (hsp.parent_iff h hs.wellFormed hp).mp
  by_cases hins : ∃ f o, st = .insertion f o
  · obtain ⟨f, o, rfl⟩ := hins
    obtain ⟨v, -, hput⟩ := evaluate_insertion_eq_ok hrun
    have hf : f ∈ ss.flatMap topFields := List.mem_flatMap.mpr ⟨_, hst, List.mem_singleton_self f⟩
    have hne := ho.insertion_ne h hst hb₀
    -- the anchors stand beside the body
    have hbeside : ∀ a ∈ f.anchors, ∀ x, t.Under b₀.body x → ¬ t.Within a x := by
      rintro a ha x ⟨n, hn, hnx⟩ hax
      exact ho.anchor_not_inLine_body h hb₀ hap hf hne hk ha hn (within_total hax hnx)
    have hdown : ∀ p c, s.tree.parent c = some p → t.Under b₀.body p → t.Under b₀.body c := fun p c hc hp =>
      hp.trans (within_of_parent ((hsp.parent_iff h hs.wellFormed hp).mp hc))
    have hzone : Zone (fun x => (∃ a ∈ f.anchors, s.tree.Within a x) ∨ s.tree.size ≤ x) (fun x => ¬ t.Under b₀.body x) s.tree := by
      refine hs.wellFormed.zone_within ?_ fun a ha p hp hx => ?_
      · rintro x (⟨a, ha, hax⟩ | hx) hux
        · exact hbeside a ha x hux (hs.lifted.within h (hlt x hux) hax)
        · exact Nat.not_lt_of_le hx (hlt' x hux)
      · exact hbeside a ha a (hdown p a hp hx) (within_refl t a)
    have hspared := spares_insert hzone hdown (fun a ha => ⟨Or.inl ⟨a, ha, within_refl _ a⟩, (hown.field f o rfl a ha).2⟩) v
    rw [hput] at hspared
    exact hspared
  · exact spares_blocks hexp hs.wellFormed hlt' hown hclear (fun f o he => hins ⟨f, o, he⟩) hrun

/-- When some of the statements have been carried out, the body is as it was scanned. -/
theorem spares_evaluateAll (hP : ∀ st ∈ ss, ∀ w, st.Unwraps w → P w) {sts : List Statement} (hsts : ∀ st ∈ sts, st ∈ ss) {s s' : Session}
    (hs : InScan P t ss env s) (hsp : Spares (t.Under b₀.body) t s.tree)
    (hrun : Statement.evaluateAll expand sts s = (.ok (), s')) : InScan P t ss env s' ∧ Spares (t.Under b₀.body) t s'.tree := by
  induction sts generalizing s with
  | nil =>
    cases hrun
    exact ⟨hs, hsp⟩
  | cons st sts ih =>
    have hst := hsts st List.mem_cons_self
    obtain ⟨s₁, hone, hrest⟩ := Statement.evaluateAll_cons_eq_ok hrun
    exact ih (fun st' hst' => hsts st' (List.mem_cons_of_mem st hst')) (hs.next hexp h hP hst hone)
      (hsp.trans (Statement.spares_evaluate h ho hap hb₀ hk hexp hs hsp hst hone)) hrest

end scan

end MailMerge
