/-
  MailMerge.Proofs.Merge.Pictures — which image the pictures of a part show in the end.

  A picture directive works on its boundary paragraphs and on the elements between them, so
  on more than what stands between its two fields. A later directive may work on the same
  nodes, and then its image is the one that stays. What is still in the part in the end was
  in the reach of a directive just when it was so from the start, since nodes only come to
  stand higher (`Lifted`).

  Proved: a picture between the two fields of a directive shows that directive's image in the
  end, if the directive reaches it and no later one does (`shows_own_image`); of two directives
  in one paragraph the later one has both pictures (`earlier_image_lost`).
-/

import MailMerge.Proofs.Merge.Lifted
import MailMerge.Proofs.Outline.Stock

namespace MailMerge

open MailMerge.Tree Merge Outline

/-! ## Pictures that are aimed -/

theorem attribute?_setAttribute {t : Tree} {id : NodeId} (hid : t.isElement id = true) (key value : String) :
    (t.setAttribute id key value).attribute? id key = some value := by
  obtain ⟨name, attributes, hk⟩ := kind_of_isElement hid
  have hnew : (t.setAttribute id key value).kind id = .element name (setAttribute.put key value attributes) := by
    rw [Tree.setAttribute, hk]
    simp only
    rw [kind_setKind, if_pos ⟨rfl, lt_size_of_isElement hid⟩]
  rw [attribute?, hnew]
  exact lookup_put key value attributes

namespace Statement

variable (image : Image) (rid : String)

/-- What an element of a picture says once it is aimed at an image. -/
structure Aimed (t : Tree) (x : NodeId) : Prop where
  blip : t.isNamed Word.blip x = true → t.attribute? x Word.embed = some rid
  properties : t.isNamed Word.pictureProperties x = true → t.attribute? x Word.pictureName = some image.name

theorem Aimed.congr {image : Image} {rid : String} {t u : Tree} {x : NodeId} (h : Aimed image rid t x)
    (hk : u.kind x = t.kind x) : Aimed image rid u x where
  blip hb := by rw [isNamed_congr hk] at hb; rw [attribute?_congr hk]; exact h.blip hb
  properties hp := by rw [isNamed_congr hk] at hp; rw [attribute?_congr hk]; exact h.properties hp

theorem aimed_aimAt (t : Tree) (x : NodeId) : Aimed image rid (aimAt image rid t x) x := by
  have hnamed : ∀ name, (aimAt image rid t x).isNamed name x = t.isNamed name x := fun name => by
    rw [isNamed, isNamed, name?_aimAt]
  have hdiff : t.isNamed Word.blip x = true → t.isNamed Word.pictureProperties x = false := by
    intro hb
    rw [isNamed, beq_iff_eq] at hb
    rw [isNamed, hb]
    decide
  refine ⟨fun hb => ?_, fun hp => ?_⟩
  · rw [hnamed] at hb
    unfold aimAt
    rw [if_neg (by rw [hdiff hb]; exact Bool.false_ne_true), if_pos hb]
    exact attribute?_setAttribute (isElement_of_isNamed hb) _ _
  · rw [hnamed] at hp
    unfold aimAt
    rw [if_pos hp]
    exact attribute?_setAttribute (isElement_of_isNamed hp) _ _

theorem aimed_foldl_aimAt (t : Tree) {ids : List NodeId} {x : NodeId} (hx : x ∈ ids) :
    Aimed image rid (ids.foldl (aimAt image rid) t) x := by
  have hkeep : ∀ (ids : List NodeId) (u : Tree), Aimed image rid u x → Aimed image rid (ids.foldl (aimAt image rid) u) x := by
    intro ids
    induction ids with
    | nil => exact fun _ hu => hu
    | cons id ids ih =>
      intro u hu
      refine ih _ ?_
      by_cases he : x = id
      · exact he ▸ aimed_aimAt image rid u x
      · exact hu.congr (kind_aimAt_of_ne image rid u he)
  obtain ⟨before, after, rfl⟩ := List.append_of_mem hx
  rw [List.foldl_append, List.foldl_cons]
  exact hkeep after _ (aimed_aimAt image rid _ x)

end Statement

/-! ## What a picture directive reaches -/

namespace Block

/-- What stands strictly between the two fields of a block, and outside of them. -/
structure Encloses (t : Tree) (b : Block) (x : NodeId) : Prop where
  order : [b.startField.marker, x, b.endField.marker].Sublist (t.descendants root)
  outside : ∀ a ∈ b.startField.anchors ++ b.endField.anchors, ¬ t.Within a x

theorem image_nodes_of_resolve? {t : Tree} {start stop : Field} {b : Block} (hr : resolve? t start stop = some b)
    (hk : b.kind = .image) : b.startNode = (start.ancestor? t Word.paragraph).getD start.first ∧
      b.endNode = (stop.ancestor? t Word.paragraph).getD stop.last := by
  have hbound := bounded_of_resolve? hr
  rw [hk] at hbound
  generalize b.startNode = s, b.endNode = e at hbound ⊢
  cases hbound
  exact ⟨rfl, rfl⟩

/-- What stands between the fields of a block is in its nodes, if its boundaries are one node
    or siblings in the right order. -/
theorem Encloses.exists_node {t : Tree} (h : t.WellFormed) {b : Block} (hr : resolve? t b.startField b.endField = some b)
    (hk : b.kind = .image) (hs : b.startField ∈ t.fields root) (he : b.endField ∈ t.fields root) {x : NodeId}
    (hx : b.Encloses t x) (hel : t.isElement x = true) (hbody : between? t b.startNode b.endNode ≠ none) :
    ∃ y ∈ b.nodes, t.Within y x := by
  have hbound := bounded_of_resolve? hr
  have hsome : between? t b.startNode b.endNode = some b.body :=
    (resolve?_eq_some.mp hr).2.1.resolve_right fun hc => hbody hc.1
  obtain ⟨n, hn, hne⟩ := hbound.exists_endNode h (placed_of_mem_fields he)
  have hstart := hbound.within_startNode h (placed_of_mem_fields hs) (by rw [hk]; decide)
  obtain ⟨z, hz, hzx⟩ := exists_within_of_between h hsome hstart hn hne hx.order (isElement_marker hs) hel (isElement_marker he)
  refine ⟨z, ?_, hzx⟩
  unfold nodes
  by_cases hsame : b.endNode = b.startNode
  · rw [if_pos hsame]
    rw [hsame] at hz
    simp only [List.cons_append, List.mem_cons, List.mem_append, List.not_mem_nil, or_false] at hz ⊢
    tauto
  · rw [if_neg hsame]
    exact hz

end Block

/-- The element of an insertion is no node that a picture directive reaches, unless it stands
    among the directive's own anchors. -/
theorem Outline.Outlined.not_unwrapped {r : Registry} {t : Tree} (h : t.WellFormed) {id : NodeId} {ss : List Statement}
    (ho : Outlined r t (t.fields id) ss) {b : Block} (hb : b ∈ ss.flatMap Statement.blocks) (hk : b.kind = .image)
    {y : NodeId} (hy : y ∈ b.nodes) (hown : y ∉ b.startField.anchors ++ b.endField.anchors) {st : Statement} (hst : st ∈ ss) :
    ¬ st.Unwraps y := by
  rintro ⟨f, o, rfl, hshape, rfl⟩
  rw [List.mem_append, not_or] at hown
  have hf := (ho.mem_fields hst).1 f o rfl
  obtain ⟨hmark, -, hnamed⟩ := simple_of_mem_fields hf hshape
  obtain ⟨hsf, hef⟩ := ho.mem_fields_block hb
  have hr := ho.resolves_block hb
  have hparagraph : ∀ {g : Field}, g.ancestor? t Word.paragraph ≠ some f.first := by
    intro g hg
    have hpar := (h.findAncestor?_eq_some hg).1
    rw [isNamed, beq_iff_eq] at hpar hnamed
    rw [hpar] at hnamed
    exact absurd hnamed (by decide)
  have hbound := Block.bounded_of_resolve? hr
  obtain ⟨hsn, hen⟩ := Block.image_nodes_of_resolve? hr hk
  have hends : f.first ≠ b.startNode ∧ f.first ≠ b.endNode := by
    rw [hsn, hen]
    constructor
    · cases ha : b.startField.ancestor? t Word.paragraph with
      | none => exact fun he => hown.1 (he ▸ Field.first_mem_anchors _)
      | some a => exact fun he => hparagraph (ha.trans (congrArg some he.symm))
    · cases ha : b.endField.ancestor? t Word.paragraph with
      | none => exact fun he => hown.2 (he ▸ Field.last_mem_anchors _)
      | some a => exact fun he => hparagraph (ha.trans (congrArg some he.symm))
  have hbody : f.first ∈ b.body := by
    unfold Block.nodes at hy
    simp only [List.cons_append, List.mem_cons, List.mem_append] at hy
    rcases hy with he | hy | hy
    · exact absurd he hends.1
    · exact hy
    · split at hy
      · cases hy
      · exact absurd (List.mem_singleton.mp hy) hends.2
  have hw : t.Within f.first f.marker := hmark ▸ within_refl t _
  obtain ⟨hxs, hex⟩ := Block.mem_laterElements_of_body h hr hbody
  have hscan : ∀ {g g' : Field}, [g, g'].Sublist (t.fields id) → [g.marker, g'.marker].Sublist (t.descendants id) :=
    fun hs => (hs.map Field.marker).trans (t.markers_sublist id)
  have htop : f ∈ ss.flatMap topFields := List.mem_flatMap.mpr ⟨_, hst, List.mem_singleton_self f⟩
  rcases ho.outside hb htop with rfl | rfl | hs | hs
  · exact hown.1 (Field.first_mem_anchors _)
  · exact hown.2 (Field.first_mem_anchors _)
  · exact h.not_scanned_backwards hxs hw (hbound.within_startNode h (placed_of_mem_fields hsf) (by rw [hk]; decide)) (hscan hs)
  · have hplaced := placed_of_mem_fields hef
    cases ha : b.endField.ancestor? t Word.paragraph with
    | some a =>
      have hea : b.endNode = a := by rw [hen, ha]; rfl
      exact h.not_scanned_backwards hex (hea ▸ Block.within_marker_of_ancestor? h hplaced ha) hw (hscan hs)
    | none =>
      -- without a paragraph the directive ends with the last anchor of its end field
      have hlast : b.endNode = b.endField.last := by rw [hen, ha]; rfl
      obtain ⟨hpe, hpf, hel, -⟩ := h.mem_laterElements hxs
      obtain ⟨hpl, -, -, -⟩ := h.mem_laterElements hex
      have hsib : t.parent f.first = t.parent b.endField.first := by
        rw [← hpl, hlast]
        exact hplaced.parent_anchor h b.endField.last_mem_anchors
      have hne : f.first ≠ b.endField.first := fun he => hown.2 (he ▸ Field.first_mem_anchors _)
      have hparent : t.parent f.first ≠ none := by rw [hpe]; exact hpf
      have helf := (h.mem_laterElements hxs).2.2.1
      have hele : t.isElement b.endField.first = true :=
        h.isElement_of_child_within (hsib ▸ hparent) hplaced.within_marker (isElement_marker hef)
      rcases h.laterElements_total hsib hparent hne helf hele with hlater | hlater
      · exact h.not_scanned_backwards hlater hplaced.within_marker hw (hscan hs)
      · rw [hplaced.later_last h] at hlater
        rcases List.mem_append.mp hlater with hmem | hmem
        · exact hown.2 (List.mem_cons_of_mem _ hmem)
        · exact h.not_mem_laterElements hex (hlast ▸ hmem)

theorem at_of_picture {e name : String} (h : Registry.stock.directive e = .picture name) : e.startsWith "@" = true := by
  have hstart : Directive.Starts e (.picture name) := by
    rw [← h]
    exact Directive.starts_of_closing (congrArg Directive.closing? h)
  cases hstart with
  | picture hread =>
    unfold Directive.picture? at hread
    split at hread
    · next rest he =>
      rw [String.startsWith_string_iff, he]
      exact ⟨rest, rfl⟩
    · cases hread

/-- The block of a picture directive begins with a field that asks for one. -/
theorem Outline.Outlined.starts_picture {r : Registry} {t : Tree} {fs : List Field} {ss : List Statement} (ho : Outlined r t fs ss)
    {o : Operand} {b : Block} (hb : .picture o b ∈ ss) : ∃ name, r.directive b.startField.expression = .picture name := by
  induction ho with
  | nil => cases hb
  | skip _ _ ih => exact ih hb
  | insertion _ _ ih => exact ih ((List.mem_cons.mp hb).resolve_left nofun)
  | @block f e stop isMarker inner marks rest s ss _ _ _ hclose _ ih =>
    rcases List.mem_cons.mp hb with rfl | hb
    · generalize hd : r.directive f.expression = d at hclose
      cases hclose with
      | @picture name _ _ _ _ hr => exact ⟨name, by rw [(Block.ends_of_resolve? hr).1, hd]⟩
    · exact ih hb

/-! ## The part in the end -/

/-- What was in reach of a node and is still in the part in the end was so all the time. -/
theorem within_of_merged {P : NodeId → Prop} {t u v : Tree} (h : t.WellFormed) (hu : u.WellFormed) (htu : Lifted P t u)
    (huv : Lifted P u v) {x y : NodeId} (hx : x < t.size) (hroot : v.Within root x) (hy : t.Within y x) (hP : ¬ P y) :
    u.Within y x :=
  htu.within_of_root h hx (huv.within hu (Nat.lt_of_lt_of_le hx htu.grows) hroot) hy hP

/-- A directive that reaches a picture aims it at its image, and what follows leaves it alone. -/
theorem aimed_evaluateAll {expand : NodeId → Merge Unit} (hexp : Expands expand) {t : Tree} (h : t.WellFormed)
    {P : NodeId → Prop} {o : Operand} {b : Block} {rest : List Statement} (hP : ∀ st ∈ rest, ∀ w, st.Unwraps w → P w)
    {s s' : Session} (hs : s.tree.WellFormed) (hlift : Lifted P t s.tree)
    (hown : ∀ st ∈ .picture o b :: rest, st.Owned (fun x => 0 ≤ x) s.tree)
    (hrun : Statement.evaluateAll expand (.picture o b :: rest) s = (.ok (), s')) {image : Image}
    (himage : o.evaluate s.env = .ok (.content (.image image))) {x y : NodeId} (hx : x < t.size) (hy : y ∈ b.nodes)
    (hyx : s.tree.Within y x) (hlater : ∀ st ∈ rest, ¬ st.Reaches t x) :
    Statement.Aimed image (image.rid.getD (s.env.media.register image).1) s'.tree x := by
  have hpicture := hown _ List.mem_cons_self
  obtain ⟨s₁, hone, hrest⟩ := Statement.evaluateAll_cons_eq_ok hrun
  have hstep := edits_evaluate hexp (fenced_zero hs) hpicture fun _ _ hx => hx
  have hfirst : Statement.evaluateAll expand [.picture o b] s = (.ok (), s₁) := by
    rw [Statement.run_evaluateAll_cons, hone]
    rfl
  have hnone : ∀ st ∈ [Statement.picture o b], ∀ w, st.Unwraps w → P w := by
    rintro st hst w ⟨f, o', rfl, -⟩
    cases List.mem_singleton.mp hst
  obtain ⟨hlift₁, -⟩ := lifted_evaluateAll hexp h hnone hs hlift (fun st hst => List.mem_singleton.mp hst ▸ hpicture) hfirst
  rw [hone] at hstep
  obtain ⟨-, hkept⟩ := lifted_evaluateAll hexp h hP hstep.tree.wellFormed hlift₁
    (fun st hst => (hown st (List.mem_cons_of_mem _ hst)).edited hstep.tree) hrest
  refine Statement.Aimed.congr ?_ (hkept x hx hlater)
  rw [Statement.evaluate, run_bind_ok (Statement.run_askOperand_ok himage _)] at hone
  obtain ⟨_, made, hshown, hgone⟩ := run_bind_eq_ok hone
  cases hgone
  refine Statement.Aimed.congr ?_ (Block.kind_giveWay b [] made x)
  have hmade := Statement.tree_showPicture_image image o b s
  rw [hshown] at hmade
  rw [hmade]
  exact Statement.aimed_foldl_aimAt image _ s.tree (List.mem_flatMap.mpr ⟨y, hy, hs.mem_subtree.mpr hyx⟩)

/-- A picture strictly between the two fields of a directive, and still in the part when all is
    done, shows the directive's own image, if the directive reaches it and no later one does.
    The directive reaches it if its boundaries are one node or siblings in the right order. -/
theorem shows_own_image {t : Tree} (h : t.WellFormed) {ss : List Statement} {l : Ledger}
    (hbuild : Outline.ofFields Registry.stock t (t.fields root) = .ok (ss, l)) {env : Environment}
    (hmerge : (t.merge Registry.stock env).outcome = .ok ()) {done rest : List Statement} {o : Operand} {b : Block}
    (hsplit : ss = done ++ .picture o b :: rest) {n : Nat} (hlevels : levelBound (t.markers root) = n + 1) {s : Session}
    (hdone : Statement.evaluateAll (below Registry.stock n) done ⟨t, env, l⟩ = (.ok (), s))
    {image : Image} (himage : o.evaluate env = .ok (.content (.image image))) {x : NodeId} (hel : t.isElement x = true)
    (hbetween : b.Encloses t x)
    (hreach : Block.between? t b.startNode b.endNode ≠ none ∨ ∃ y ∈ b.nodes, t.Within y x)
    (hlater : ∀ st ∈ rest, ¬ st.Reaches t x) (hin : (t.merge Registry.stock env).tree.isAttached x = true) :
    Statement.Aimed image (image.rid.getD (s.env.media.register image).1) (t.merge Registry.stock env).tree x := by
  have ho := outlined_of_takeAll hbuild
  have hst : .picture o b ∈ ss := by rw [hsplit]; simp
  have hb : b ∈ ss.flatMap Statement.blocks := List.mem_flatMap.mpr ⟨_, hst, List.mem_singleton_self b⟩
  have hr := ho.resolves_block hb
  have hk : b.kind = .image := by
    obtain ⟨name, hname⟩ := ho.starts_picture hst
    exact (Block.kind_eq_image_iff hr).mpr (at_of_picture hname)
  obtain ⟨hsf, hef⟩ := ho.mem_fields_block hb
  obtain ⟨y, hy, hyx⟩ : ∃ y ∈ b.nodes, t.Within y x :=
    hreach.elim (fun hbody => hbetween.exists_node h hr hk hsf hef hel hbody) id
  -- what is unwrapped on the way is the element of an insertion, and the directive reaches none
  let P : NodeId → Prop := fun w => ∃ st ∈ ss, st.Unwraps w
  have hP : ¬ P y := fun ⟨st, hst', hw⟩ => ho.not_unwrapped h hb hk hy (fun ha => hbetween.outside y ha hyx) hst' hw
  have hPs : ∀ sts : List Statement, sts ⊆ ss → ∀ st ∈ sts, ∀ w, st.Unwraps w → P w := fun sts hsub st hst' w hw =>
    ⟨st, hsub hst', hw⟩
  have hbefore_sub : done ⊆ ss := by rw [hsplit]; exact List.subset_append_left _ _
  have hafter_sub : (.picture o b :: rest) ⊆ ss := by rw [hsplit]; exact List.subset_append_right _ _
  have hexp := expands_below Registry.stock n
  have hown := Tree.Zone.owned_statements (fenced_zero h) (fun _ hx => hx) (Nat.zero_le root) ho
  -- the run up to the directive
  have hbefore := edits_evaluateAll (s := ⟨t, env, l⟩) hexp (fenced_zero h) (fun st hst' => hown st (hbefore_sub hst'))
    fun _ _ _ _ hx => hx
  have hts := (lifted_evaluateAll hexp h (hPs done hbefore_sub) h (.refl P t) (fun st hst' => hown st (hbefore_sub hst')) hdone).1
  rw [hdone] at hbefore
  have hs := hbefore.tree.wellFormed
  have hown' : ∀ st ∈ .picture o b :: rest, st.Owned (fun x => 0 ≤ x) s.tree := fun st hst' =>
    (hown st (hafter_sub hst')).edited hbefore.tree
  -- the directive and what follows it
  obtain ⟨last, hrun, htree, -⟩ := merge_eq_ok hmerge
  rw [hlevels] at hrun
  obtain ⟨ss', l', last', hbuild', hafter, rfl⟩ := run_below_eq_ok.mp hrun
  rw [hbuild] at hbuild'
  cases hbuild'
  rw [hsplit, Statement.run_evaluateAll_append, hdone] at hafter
  simp only at hafter htree
  have hsl := (lifted_evaluateAll hexp hs (hPs _ hafter_sub) hs (.refl P s.tree) hown' hafter).1
  have hed := edits_evaluateAll hexp (fenced_zero hs) hown' fun _ _ _ _ hx => hx
  rw [hafter] at hed
  have hfill := stays_fillEmptyCells last'.tree root
  have hx : x < t.size := lt_size_of_isElement hel
  have hxl : x < last'.tree.size := Nat.lt_of_lt_of_le (Nat.lt_of_lt_of_le hx hts.grows) hsl.grows
  have hreached : s.tree.Within y x := by
    rw [htree, (edited_fillEmptyCells hed.tree.wellFormed root).wellFormed.isAttached_iff] at hin
    exact within_of_merged h hs hts hsl hx ((hfill.lifted P).within hed.tree.wellFormed hxl hin) hyx hP
  rw [htree]
  refine (aimed_evaluateAll hexp h (fun st hst' => hPs _ hafter_sub st (List.mem_cons_of_mem _ hst')) hs hts hown' hafter ?_
    hx hy hreached hlater).congr (hfill.kind x hxl)
  rw [o.evaluate_alike hbefore.env]
  exact himage

/-! ## Two directives in one paragraph -/

/-- A paragraph with two directives, each around a picture. -/
def shared : Tree :=
  ⟨#[⟨.container, none, [1], .none⟩, ⟨.element Word.paragraph [], some root, [2, 3, 4, 5, 6, 7], .none⟩,
    field "@x:start", blip, field "@x:end", field "@y:start", blip, field "@y:end"]⟩
where
  blip : Node := ⟨.element Word.blip [(Word.embed, "old")], some 1, [], .none⟩
  field (directive : String) : Node :=
    ⟨.element Word.simpleField [(Word.fieldInstruction, "MERGEFIELD " ++ directive)], some 1, [], .none⟩

namespace Shared

def first : Image := ⟨"first", [], some "r1"⟩

def second : Image := ⟨"second", [], some "r2"⟩

def env : Environment :=
  ⟨[("x", .content (.image first)), ("y", .content (.image second))], [], .lenient, .empty⟩

def fieldAt (marker : NodeId) (directive : String) : Field := ⟨marker, directive, marker, [], .simple, true, .none⟩

def left : Block := ⟨.image, fieldAt 2 "@x:start", fieldAt 4 "@x:end", 1, 1, []⟩

def right : Block := ⟨.image, fieldAt 5 "@y:start", fieldAt 7 "@y:end", 1, 1, []⟩

def statements : List Statement := [.picture ⟨"x", []⟩ left, .picture ⟨"y", []⟩ right]

def ledger : Ledger := ⟨[7, 5, 4, 2], [], [1, 1, 1, 1]⟩

/-- The levels left below the part itself. -/
def levels : Nat := 4 + levelsForMarkup

/-- The session behind the first directive. -/
def between : Session :=
  (Statement.evaluateAll (below Registry.stock levels) [.picture ⟨"x", []⟩ left] ⟨shared, env, ledger⟩).2

theorem wellFormed : shared.WellFormed := wellFormed_of_earlier (by decide) (by decide) (by decide)

theorem built : Outline.ofFields Registry.stock shared (shared.fields root) = .ok (statements, ledger) := by cbv

theorem merged : (shared.merge Registry.stock env).outcome = .ok () := by cbv

theorem levels_eq : levelBound (shared.markers root) = levels + 1 := by decide

theorem run_left : Statement.evaluateAll (below Registry.stock levels) [.picture ⟨"x", []⟩ left] ⟨shared, env, ledger⟩ =
    (.ok (), between) := Prod.ext (by cbv) rfl

theorem encloses {b : Block} {x : NodeId} (ho : [b.startField.marker, x, b.endField.marker].Sublist (shared.descendants root))
    (hx : ∀ a ∈ b.startField.anchors ++ b.endField.anchors, x ∉ shared.subtree a) : b.Encloses shared x :=
  ⟨ho, fun a ha hw => hx a ha (wellFormed.mem_subtree.mpr hw)⟩

end Shared

open Shared in
/-- The first picture stands between the fields of the first directive, and yet it shows the
    image of the second one. -/
theorem earlier_image_lost : ∃ (t : Tree) (env : Environment) (ss : List Statement) (l : Ledger) (n : Nat),
    t.WellFormed ∧ Outline.ofFields Registry.stock t (t.fields root) = .ok (ss, l) ∧
      (∀ st ∈ ss, ∃ o b image, st = .picture o b ∧ o.evaluate env = .ok (.content (.image image))) ∧
      (t.merge Registry.stock env).outcome = .ok () ∧ levelBound (t.markers root) = n + 1 ∧
      ∃ done o b rest s image x, ss = done ++ .picture o b :: rest ∧
        Statement.evaluateAll (below Registry.stock n) done ⟨t, env, l⟩ = (.ok (), s) ∧
        o.evaluate env = .ok (.content (.image image)) ∧ b.Encloses t x ∧ t.isNamed Word.blip x = true ∧
        (t.merge Registry.stock env).tree.isAttached x = true ∧
        (t.merge Registry.stock env).tree.attribute? x Word.embed ≠ some (image.rid.getD (s.env.media.register image).1) := by
  refine ⟨shared, env, statements, ledger, levels, wellFormed, built, ?_, merged, levels_eq, [], ⟨"x", []⟩, left,
    [.picture ⟨"y", []⟩ right], ⟨shared, env, ledger⟩, first, 3, rfl, rfl, by cbv, encloses (by decide) (by decide),
    by decide, by cbv, ?_⟩
  · intro st hst
    simp only [statements, List.mem_cons, List.not_mem_nil, or_false] at hst
    rcases hst with rfl | rfl
    · exact ⟨_, _, first, rfl, by cbv⟩
    · exact ⟨_, _, second, rfl, by cbv⟩
  · have hshown : (shared.merge Registry.stock env).tree.attribute? 3 Word.embed = some "r2" := by cbv
    rw [hshown]
    decide

open Shared in
/-- The second picture shows the image of the directive around it. -/
theorem later_image_shown : shared.WellFormed ∧ right.Encloses shared 6 ∧
    (shared.merge Registry.stock env).tree.isAttached 6 = true ∧
    Statement.Aimed second (second.rid.getD (between.env.media.register second).1) (shared.merge Registry.stock env).tree 6 := by
  have hsplit : statements = [.picture ⟨"x", []⟩ left] ++ .picture ⟨"y", []⟩ right :: [] := rfl
  have hright : right.Encloses shared 6 := encloses (by decide) (by decide)
  have hin : (shared.merge Registry.stock env).tree.isAttached 6 = true := by cbv
  exact ⟨wellFormed, hright, hin, shows_own_image wellFormed built merged hsplit levels_eq run_left (by cbv) (by decide) hright
    (Or.inl (by decide)) (by simp) hin⟩

end MailMerge
