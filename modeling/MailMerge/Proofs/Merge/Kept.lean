/-
  MailMerge.Proofs.Merge.Kept — what becomes of the content that blocks are given.

  While the statements of a scan are carried out, the nodes above the first boundaries of
  its blocks stay where they are, with one exception: a row or paragraph that bounds blocks
  itself leaves with the last of these, unless it is pinned (`Ledger.Frees`). Content stands
  beside the first boundary of its block, so it stays just as long as what is above that.

  Proved: carrying out statements keeps to this (`Underway.evaluateAll`), so the content of a
  block stays in the part just when nothing above its first boundary is ever freed
  (`attached_iff_never_freed`). A row that bounds one block may hold the paragraphs of another
  one, whose content it then takes away (`content_lost_with_row`).
-/

import MailMerge.Proofs.Block.Apart
import MailMerge.Proofs.Merge.Edits
import MailMerge.Proofs.Value.Reach

namespace MailMerge

open MailMerge.Tree Merge Outline

/-- The node is a boundary that nothing pins and, in the second ledger, no block refers to. -/
def Ledger.Frees (l₀ l : Ledger) (x : NodeId) : Prop := 0 < l₀.nodeCount x ∧ x ∉ l₀.pinned ∧ l.nodeCount x = 0

/-- The statements of a part whose fields stand apart, and their ledger. -/
structure Laid (r : Registry) (t : Tree) (ss : List Statement) (l₀ : Ledger) : Prop where
  wellFormed : t.WellFormed
  container : t.isElement root = false
  outlined : Outlined r t (t.fields root) ss
  apart : Apart t (ss.flatMap topFields)
  covers : l₀.Covers t (ss.flatMap Statement.blocks)

/-- What has to stay in its place: all above the first boundaries, those of the blocks still
    to come, and content already placed. -/
def Vital (t : Tree) (ss : List Statement) (pending : List Block) (placed : List NodeId) (x : NodeId) : Prop :=
  (∃ b ∈ ss.flatMap Statement.blocks, t.Within x b.startNode ∧ x ≠ b.startNode) ∨ (∃ b ∈ pending, x = b.startNode) ∨ x ∈ placed

/-- A session with the blocks still to come, and content placed beside the first boundary of `b₀`. -/
structure Underway (t : Tree) (l₀ : Ledger) (ss : List Statement) (b₀ : Block) (pending : List Block)
    (placed : List NodeId) (s : Session) : Prop where
  plain : s.env.Plain
  edited : Beyond 0 t s.tree
  covers : s.ledger.Covers t pending
  pinned : s.ledger.pinned = l₀.pinned
  sub : ∀ b ∈ pending, b ∈ ss.flatMap Statement.blocks
  kept : ∀ b ∈ ss.flatMap Statement.blocks, ∀ x, t.Within x b.startNode → x ≠ b.startNode → ¬ l₀.Frees s.ledger x →
    s.tree.parent x = t.parent x
  gone : ∀ b ∈ ss.flatMap Statement.blocks, ∀ x, t.Within x b.startNode → x ≠ b.startNode → l₀.Frees s.ledger x →
    s.tree.parent x = none
  starts : ∀ b ∈ pending, s.tree.parent b.startNode = t.parent b.startNode
  placed : ∀ c ∈ placed, t.size ≤ c ∧ c < s.tree.size ∧ s.tree.parent c = t.parent b₀.startNode

theorem ledger_insert (f : Field) (v : Value) (s : Session) : (Statement.insert f v s).2.ledger = s.ledger := by
  cases v with
  | boolean b => cases b <;> rfl
  | content c =>
    cases c with
    | markup source =>
      rw [Statement.insert, run_bind_ok (run_withTree _ s)]
      generalize Splice.putMarkup f source s.tree = put
      obtain ⟨result, u⟩ := put
      cases result <;> rfl
    | _ => rfl
  | _ => rfl

theorem showPicture_spec (o : Operand) (b : Block) (v : Value) (s : Session) :
    (Statement.showPicture o b v s).2.ledger = s.ledger ∧
      ∀ x, (Statement.showPicture o b v s).2.tree.parent x = s.tree.parent x := by
  have haim : ∀ (image : Image) (rid : String) (ids : List NodeId) (u : Tree) (x : NodeId),
      (ids.foldl (Statement.aimAt image rid) u).parent x = u.parent x := by
    intro image rid ids
    induction ids with
    | nil => exact fun _ _ => rfl
    | cons id ids ih =>
      intro u x
      rw [List.foldl_cons, ih]
      unfold Statement.aimAt
      split
      · exact parent_setAttribute _ _ _ _ _
      · split
        · exact parent_setAttribute _ _ _ _ _
        · rfl
  cases v with
  | content c =>
    cases c with
    | image image =>
      rw [Statement.showPicture, run_bind]
      have hrel : ∃ rid media, Statement.relationship image s = (.ok rid, { s with env := { s.env with media } }) := by
        unfold Statement.relationship
        cases image.rid with
        | some rid => exact ⟨rid, s.env.media, rfl⟩
        | none => exact ⟨_, _, rfl⟩
      obtain ⟨rid, media, hrel⟩ := hrel
      rw [hrel]
      exact ⟨rfl, haim image rid _ _⟩
    | _ => exact ⟨rfl, fun _ => rfl⟩
  | _ => exact ⟨rfl, fun _ => rfl⟩

/-- Content that stands nowhere yet, made of nodes that the part did not have. -/
structure Made (t : Tree) (content : List NodeId) (D : NodeId → Prop) (u : Tree) : Prop where
  unplaced : Unplaced D u content
  new : ∀ x, D x → t.size ≤ x

theorem Made.content {t u : Tree} {D : NodeId → Prop} {content : List NodeId} (hc : Made t content D u) :
    ∀ c ∈ content, t.size ≤ c ∧ u.parent c = none := fun c hcm =>
  ⟨hc.new c (hc.unplaced.mem c hcm).1, (hc.unplaced.mem c hcm).2.2⟩

theorem made_nil (t u : Tree) : Made t [] (fun _ => False) u :=
  ⟨.nil ⟨fun _ hx => hx.elim, fun _ _ _ hx => hx, fun _ _ _ hx => hx⟩, fun _ hx => hx.elim⟩

theorem Block.Owned.lt_size_of_leaving {b : Block} {S : NodeId → Prop} {t : Tree} (ho : b.Owned S t) {l : Ledger} {x : NodeId}
    (hx : x ∈ b.leaving l) : x < t.size := by
  rcases Ledger.mem_leaving hx with ⟨-, hx⟩ | ⟨hx, -⟩ | ⟨f, hf, hx, -⟩
  · exact (ho.body x hx).2.2
  · unfold Block.ownNodes at hx
    split at hx
    · simp only [List.mem_cons, List.not_mem_nil, or_false] at hx
      rcases hx with rfl | rfl
      · exact ho.startNode.2
      · exact ho.endNode.2
    · cases hx
  · rcases hf with rfl | rfl
    · exact (ho.startField x hx).2.lt_size
    · exact (ho.endField x hx).2.lt_size

section steps

variable {r : Registry} {t : Tree} {l₀ : Ledger} {ss : List Statement} (hl : Laid r t ss l₀)

include hl

theorem Laid.owned {st : Statement} (hst : st ∈ ss) : st.Owned (fun x => 0 ≤ x) t :=
  Tree.Zone.owned_statements (fenced_zero hl.wellFormed) (fun _ hx => hx) (Nat.zero_le root) hl.outlined st hst

theorem Laid.owned_block {b : Block} (hb : b ∈ ss.flatMap Statement.blocks) : b.Owned (fun x => 0 ≤ x) t := by
  obtain ⟨st, hst, hbs⟩ := List.mem_flatMap.mp hb
  exact (hl.owned hst).blocks b hbs

theorem Laid.exists_parent {b : Block} (hb : b ∈ ss.flatMap Statement.blocks) : ∃ p, t.parent b.startNode = some p := by
  obtain ⟨hw, hne⟩ := hl.outlined.below_root hl.wellFormed hl.container hl.apart hb
  rcases within_iff.mp hw with he | ⟨p, hp, -⟩
  · exact absurd he hne
  · exact ⟨p, hp⟩

theorem Laid.lt_size_of_above {b : Block} (hb : b ∈ ss.flatMap Statement.blocks) {x : NodeId} (hx : t.Within x b.startNode) :
    x < t.size := by
  by_cases hne : x = b.startNode
  · exact hne ▸ (hl.owned_block hb).startNode.2
  · obtain ⟨c, hc, -⟩ := exists_child_of_within hx (Ne.symm hne)
    exact hl.wellFormed.parent_lt_size hc

theorem Laid.lt_size_of_leaving {b : Block} (hb : b ∈ ss.flatMap Statement.blocks) {l : Ledger} {x : NodeId}
    (hx : x ∈ b.leaving l) : x < t.size := (hl.owned_block hb).lt_size_of_leaving hx

variable {b₀ : Block} {pending : List Block} {placed : List NodeId} {s s' : Session}

theorem Underway.lt_size_of_vital (hu : Underway t l₀ ss b₀ pending placed s) {x : NodeId} (hx : Vital t ss pending placed x) :
    x < s.tree.size := by
  rcases hx with ⟨b, hb, hw, -⟩ | ⟨b, hb, rfl⟩ | hx
  · exact Nat.lt_of_lt_of_le (hl.lt_size_of_above hb hw) hu.edited.grows
  · exact Nat.lt_of_lt_of_le (hl.lt_size_of_above (hu.sub b hb) (within_refl t _)) hu.edited.grows
  · exact (hu.placed x hx).2.1

omit hl in
/-- Steps that leave the ledger and the places of all that is vital. -/
theorem Underway.of_parents (hu : Underway t l₀ ss b₀ pending placed s) (henv : s'.env.Alike s.env)
    (hed : Beyond 0 s.tree s'.tree) (hledger : s'.ledger = s.ledger) (hp : ∀ x, Vital t ss pending placed x → s'.tree.parent x = s.tree.parent x) :
    Underway t l₀ ss b₀ pending placed s' where
  plain := hu.plain.alike henv
  edited := hu.edited.trans hed
  covers := hledger ▸ hu.covers
  pinned := hledger ▸ hu.pinned
  sub := hu.sub
  kept b hb x hx hne hf := by
    rw [hp x (Or.inl ⟨b, hb, hx, hne⟩)]
    exact hu.kept b hb x hx hne (hledger ▸ hf)
  gone b hb x hx hne hf := by
    rw [hp x (Or.inl ⟨b, hb, hx, hne⟩)]
    exact hu.gone b hb x hx hne (hledger ▸ hf)
  starts b hb := by rw [hp _ (Or.inr (Or.inl ⟨b, hb, rfl⟩))]; exact hu.starts b hb
  placed c hc := by
    obtain ⟨hge, hlt, hpar⟩ := hu.placed c hc
    exact ⟨hge, Nat.lt_of_lt_of_le hlt hed.grows, (hp c (Or.inr (Or.inr hc))).trans hpar⟩

/-- Expanding copies is such a step. -/
theorem Underway.expanded (hu : Underway t l₀ ss b₀ pending placed s) (h : Expanded s.tree.size s s') :
    Underway t l₀ ss b₀ pending placed s' :=
  hu.of_parents h.env (h.tree.of_le (fenced_zero hu.edited.wellFormed) (Nat.zero_le _)) h.ledger fun _ hx =>
    h.tree.parent_eq (hu.lt_size_of_vital hl hx)

/-! ## Insertions -/

/-- Above what is vital nothing is new. -/
theorem Underway.within_above (hu : Underway t l₀ ss b₀ pending placed s) {b : Block} (hb : b ∈ ss.flatMap Statement.blocks)
    {a x : NodeId} (hx : t.Within x b.startNode) (hne : x ≠ b.startNode) (hw : s.tree.Within a x) : t.Within a x := by
  induction hw with
  | refl => exact within_refl t a
  | @tail p c _ hc ih =>
    by_cases hf : l₀.Frees s.ledger c
    · rw [hu.gone b hb c hx hne hf] at hc
      cases hc
    · rw [hu.kept b hb c hx hne hf] at hc
      have hpb := within_trans (within_of_parent hc) hx
      refine within_parent (ih hpb ?_) hc
      rintro rfl
      exact hl.wellFormed.not_within_of_parent hc hx

/-- The anchors of an insertion are not above what is vital. -/
theorem Underway.not_within_vital (hu : Underway t l₀ ss b₀ pending placed s) (hb₀ : b₀ ∈ ss.flatMap Statement.blocks)
    {f : Field} {o : Operand} (hf : .insertion f o ∈ ss) {a x : NodeId} (ha : a ∈ f.anchors)
    (hx : Vital t ss pending placed x) : ¬ s.tree.Within a x := by
  have hft : f ∈ ss.flatMap topFields := List.mem_flatMap.mpr ⟨_, hf, List.mem_singleton_self f⟩
  have hout : ∀ b ∈ ss.flatMap Statement.blocks, ¬ t.Within a b.startNode := fun b hb =>
    hl.outlined.not_within_anchor hl.wellFormed hb hl.apart hft (hl.outlined.insertion_ne hl.wellFormed hf hb) ha
  -- what stands beside a first boundary stands within the same
  have hbeside : ∀ b ∈ ss.flatMap Statement.blocks, s.tree.parent x = t.parent b.startNode → s.tree.Within a x → a = x := by
    intro b hb hp hw
    rcases within_iff.mp hw with he | ⟨p, hpx, hwp⟩
    · exact he.symm
    · rw [hp] at hpx
      have hpb : t.Within p b.startNode := within_of_parent hpx
      have hne : p ≠ b.startNode := by
        rintro he
        exact hl.wellFormed.not_within_of_parent hpx (he ▸ within_refl t _)
      exact absurd (within_trans (hu.within_above hl hb hpb hne hwp) hpb) (hout b hb)
  intro hw
  rcases hx with ⟨b, hb, hx, hne⟩ | ⟨b, hb, rfl⟩ | hx
  · exact hout b hb (within_trans (hu.within_above hl hb hx hne hw) hx)
  · have he := hbeside b (hu.sub b hb) (hu.starts b hb) hw
    exact hout b (hu.sub b hb) (he ▸ within_refl t _)
  · obtain ⟨hge, -, hp⟩ := hu.placed x hx
    have he := hbeside b₀ hb₀ hp hw
    exact Nat.not_lt_of_le hge (he ▸ ((hl.owned hf).field f o rfl a ha).2.lt_size)

/-- An insertion that puts no markup into the part works below its anchors. -/
theorem Underway.insert (hu : Underway t l₀ ss b₀ pending placed s) (hb₀ : b₀ ∈ ss.flatMap Statement.blocks)
    {f : Field} {o : Operand} (hf : .insertion f o ∈ ss) {v : Value} (hv : ∀ source, v ≠ .content (.markup source)) :
    Underway t l₀ ss b₀ pending placed (Statement.insert f v s).2 := by
  have hzone : Zone (fun x => (∃ a ∈ f.anchors, s.tree.Within a x) ∨ s.tree.size ≤ x) (fun _ => True) s.tree :=
    hu.edited.wellFormed.zone_within (fun _ _ => trivial) fun _ _ _ _ => trivial
  have howned : f.Owned (fun x => (∃ a ∈ f.anchors, s.tree.Within a x) ∨ s.tree.size ≤ x) s.tree := fun a ha =>
    ⟨Or.inl ⟨a, ha, within_refl _ a⟩, hu.edited.hosts ((hl.owned hf).field f o rfl a ha).2⟩
  have hed := edits_insert hzone howned v fun ⟨source, he⟩ => absurd he (hv source)
  refine hu.of_parents hed.env (hed.tree.mono (fenced_zero hu.edited.wellFormed) (fun _ _ => Nat.zero_le _) fun _ _ => Nat.zero_le _)
    (ledger_insert f v s) fun x hx => hed.tree.parent x ?_
  rintro (⟨a, ha, hw⟩ | hlt)
  · exact hu.not_within_vital hl hb₀ hf ha hx hw
  · exact Nat.not_lt_of_le hlt (hu.lt_size_of_vital hl hx)

/-! ## Blocks that give way -/

/-- Where the nodes stand after a block has given way. -/
theorem Underway.parent_giveWay {b : Block} (hu : Underway t l₀ ss b₀ (b :: pending) placed s) {content : List NodeId}
    (hi : Insertable s.tree b.startNode content) (x : NodeId) :
    (b.giveWay content s).2.tree.parent x = if x ∈ b.leaving s.ledger then none
      else if x ∈ content then t.parent b.startNode else s.tree.parent x := by
  obtain ⟨p, hp⟩ := hl.exists_parent (hu.sub b List.mem_cons_self)
  have hstart := (hu.starts b List.mem_cons_self).trans hp
  rw [Block.run_giveWay, Block.replace_eq]
  show ((s.tree.insertAllAfter b.startNode content).detachAll (b.leaving s.ledger)).parent x = _
  rw [parent_detachAll, hu.edited.wellFormed.parent_insertAllAfter hi hstart, hp]

/-- Of what is above a first boundary only boundaries leave that are then free. -/
theorem Underway.frees_of_leaving {b : Block} (hu : Underway t l₀ ss b₀ (b :: pending) placed s) {b' : Block}
    (hb' : b' ∈ ss.flatMap Statement.blocks) {x : NodeId} (hx : t.Within x b'.startNode) (hne : x ≠ b'.startNode)
    (hleave : x ∈ b.leaving s.ledger) : l₀.Frees (b.after s.ledger) x := by
  have hb := hu.sub b List.mem_cons_self
  rcases Ledger.mem_leaving hleave with ⟨hk, hbody⟩ | ⟨hown, hcount, hpin⟩ | ⟨f, hf, ha, -⟩
  · exact absurd hx (hl.outlined.not_within_body hl.wellFormed hb hl.apart hb' hk hbody)
  · refine ⟨?_, hu.pinned ▸ hpin, hcount⟩
    rw [hl.covers.nodes]
    exact List.count_pos_iff.mpr (List.mem_flatMap.mpr ⟨b, hb, hown⟩)
  · have hft : f ∈ ss.flatMap topFields := by
      rcases hf with rfl | rfl
      · exact (hl.outlined.mem_topFields hb).1
      · exact (hl.outlined.mem_topFields hb).2
    exact absurd ha (hl.outlined.not_mem_anchors_of_above hl.wellFormed hb' hl.apart hft hx hne)

/-- The first boundaries of the blocks still to come do not leave. -/
theorem Underway.start_not_leaving {b : Block} (hu : Underway t l₀ ss b₀ (b :: pending) placed s) {b' : Block}
    (hb' : b' ∈ pending) : b'.startNode ∉ b.leaving s.ledger := by
  intro hleave
  have hb := hu.sub b List.mem_cons_self
  have hbs := hu.sub b' (List.mem_cons_of_mem b hb')
  have hcovers := hu.covers.after
  rcases Ledger.mem_leaving hleave with ⟨hk, hbody⟩ | ⟨hown, hcount, hpin⟩ | ⟨f, hf, ha, hcount⟩
  · exact hl.outlined.not_within_body hl.wellFormed hb hl.apart hbs hk hbody (within_refl t _)
  · cases ho : b'.hasOwnBoundaries with
    | true =>
      rw [hcovers.nodes] at hcount
      refine List.count_eq_zero.mp hcount (List.mem_flatMap.mpr ⟨b', hb', ?_⟩)
      rw [Block.ownNodes, if_pos ho]
      exact List.mem_cons_self
    | false =>
      have hq := hl.outlined.eq_of_ownNodes hl.wellFormed hbs hl.apart hb ho hown
      exact hpin (hu.covers.pinned b' (List.mem_cons_of_mem b hb') ho _ hq)
  · by_cases hs : f = b'.startField
    · have hmarks := hcovers.fields f.marker
      rw [hcount] at hmarks
      refine List.count_eq_zero.mp (Nat.le_zero.mp hmarks) (List.mem_flatMap.mpr ⟨b', hb', ?_⟩)
      rw [hs]
      exact List.mem_cons_self
    · have hft : f ∈ ss.flatMap topFields := by
        rcases hf with rfl | rfl
        · exact (hl.outlined.mem_topFields hb).1
        · exact (hl.outlined.mem_topFields hb).2
      exact hl.outlined.not_within_anchor hl.wellFormed hbs hl.apart hft hs ha (within_refl t _)

theorem Underway.giveWay {b : Block} (hu : Underway t l₀ ss b₀ (b :: pending) placed s) (hb₀ : b₀ ∈ ss.flatMap Statement.blocks)
    {content : List NodeId} (hc : ∀ c ∈ content, t.size ≤ c ∧ s.tree.parent c = none)
    (hi : Insertable s.tree b.startNode content) : Underway t l₀ ss b₀ pending placed (b.giveWay content s).2 := by
  have hb := hu.sub b List.mem_cons_self
  have hparent := hu.parent_giveWay hl hi
  have hledger : (b.giveWay content s).2.ledger = b.after s.ledger := by rw [Block.run_giveWay, Block.replace_eq]
  have hed := edits_giveWay (fenced_zero hu.edited.wellFormed) ((hl.owned_block hb).edited hu.edited)
    (fun _ _ => Nat.zero_le _) hi
  have hold : ∀ {b' : Block}, b' ∈ ss.flatMap Statement.blocks → ∀ {x : NodeId}, t.Within x b'.startNode → x ∉ content :=
    fun hb' _ hx hxc => Nat.not_lt_of_le (hc _ hxc).1 (hl.lt_size_of_above hb' hx)
  refine ⟨hu.plain.alike hed.env, hu.edited.trans hed.tree, hledger ▸ hu.covers.after, ?_, fun b' hb' => hu.sub b' (List.mem_cons_of_mem b hb'),
    fun b' hb' x hx hne hf => ?_, fun b' hb' x hx hne hf => ?_, fun b' hb' => ?_, fun c hcp => ?_⟩
  · rw [hledger, Ledger.pinned_after]
    exact hu.pinned
  · rw [hledger] at hf
    rw [hparent, if_neg fun hleave => hf (hu.frees_of_leaving hl hb' hx hne hleave), if_neg (hold hb' hx)]
    refine hu.kept b' hb' x hx hne fun hf' => hf ⟨hf'.1, hf'.2.1, ?_⟩
    rw [Ledger.nodeCount_after, hf'.2.2, Nat.zero_sub]
  · rw [hledger] at hf
    rw [hparent]
    split
    · rfl
    · next hleave =>
      rw [if_neg (hold hb' hx)]
      refine hu.gone b' hb' x hx hne ⟨hf.1, hf.2.1, ?_⟩
      by_contra hcount
      -- the block has just given up the last reference
      have hafter := hf.2.2
      rw [Ledger.nodeCount_after] at hafter
      have hown : x ∈ b.ownNodes := List.count_pos_iff.mp (by omega)
      exact hleave (Ledger.mem_leaving_of_free hown hf.2.2 (hu.pinned ▸ hf.2.1))
  · rw [hparent, if_neg (hu.start_not_leaving hl hb'), if_neg (hold (hu.sub b' (List.mem_cons_of_mem b hb')) (within_refl t _))]
    exact hu.starts b' (List.mem_cons_of_mem b hb')
  · obtain ⟨hge, hlt, hp⟩ := hu.placed c hcp
    obtain ⟨p, hp₀⟩ := hl.exists_parent hb₀
    refine ⟨hge, Nat.lt_of_lt_of_le hlt hed.tree.grows, ?_⟩
    rw [hparent, if_neg fun hleave => Nat.not_lt_of_le hge (hl.lt_size_of_leaving hb hleave), if_neg, hp]
    intro hcc
    rw [(hc c hcc).2, hp₀] at hp
    cases hp

/-- The content of a block comes to stand beside its first boundary. -/
theorem Underway.place {b : Block} (hu : Underway t l₀ ss b₀ (b :: pending) placed s) {content : List NodeId}
    (hc : ∀ c ∈ content, t.size ≤ c ∧ s.tree.parent c = none) (hi : Insertable s.tree b.startNode content) :
    Underway t l₀ ss b pending content (b.giveWay content s).2 := by
  have hb := hu.sub b List.mem_cons_self
  have hnone : Underway t l₀ ss b (b :: pending) [] s :=
    ⟨hu.plain, hu.edited, hu.covers, hu.pinned, hu.sub, hu.kept, hu.gone, hu.starts, fun _ hc => nomatch hc⟩
  refine { hnone.giveWay hl hb hc hi with placed := fun c hcc => ?_ }
  have hed := edits_giveWay (fenced_zero hu.edited.wellFormed) ((hl.owned_block hb).edited hu.edited)
    (fun _ _ => Nat.zero_le _) hi
  refine ⟨(hc c hcc).1, Nat.lt_of_lt_of_le (hi.lt_size c hcc) hed.tree.grows, ?_⟩
  rw [hu.parent_giveWay hl hi, if_neg fun hleave => Nat.not_lt_of_le (hc c hcc).1 (hl.lt_size_of_leaving hb hleave), if_pos hcc]

theorem Made.insertable {D : NodeId → Prop} {content : List NodeId} {u : Tree} (hc : Made t content D u) {b : Block}
    (hb : b ∈ ss.flatMap Statement.blocks) : Insertable u b.startNode content :=
  hc.unplaced.insertable fun hd => Nat.not_lt_of_le (hc.new _ hd) (hl.owned_block hb).startNode.2

/-- Content to come is not touched when a block is dropped. -/
theorem Made.giveWay {b : Block} (hu : Underway t l₀ ss b₀ (b :: pending) placed s) {D : NodeId → Prop}
    {content : List NodeId} (hc : Made t content D s.tree) : Made t content D (b.giveWay [] s).2.tree where
  unplaced := by
    have howned := ((hl.owned_block (hu.sub b List.mem_cons_self)).mono fun x hlt h0 =>
      (⟨h0, fun hd => Nat.not_lt_of_le (hc.new x hd) hlt⟩ : 0 ≤ x ∧ ¬ D x)).edited hu.edited
    have hzone := (fenced_zero hu.edited.wellFormed).without hc.unplaced.aside
    exact hc.unplaced.edited hu.edited.wellFormed (edits_giveWay_nil hzone howned).tree
  new := hc.new

theorem Underway.dropAll (hb₀ : b₀ ∈ ss.flatMap Statement.blocks) {D : NodeId → Prop} {content : List NodeId}
    (bs : List Block) (hu : Underway t l₀ ss b₀ (bs ++ pending) placed s) (hc : Made t content D s.tree) :
    Underway t l₀ ss b₀ pending placed (Block.dropAll bs s) ∧ Made t content D (Block.dropAll bs s).tree := by
  induction bs generalizing s with
  | nil => exact ⟨hu, hc⟩
  | cons b bs ih =>
    exact ih (hu.giveWay hl hb₀ (fun _ hc => nomatch hc) (insertable_nil _ _)) (hc.giveWay hl hu)

/-! ## Statements -/

theorem Fresh.made {m : Nat} {content : List NodeId} {u : Tree} (hc : Fresh m u content) (h : Fenced m u) (hm : t.size ≤ m) :
    Made t content (fun x => m ≤ x ∧ x < u.size) u where
  unplaced := hc.unplaced h (Nat.lt_of_lt_of_le hl.wellFormed.rooted hm)
  new _ hx := Nat.le_trans hm hx.1

/-- What a statement makes is made of new nodes, and nothing else moves. -/
theorem Underway.makes {expand : NodeId → Merge Unit} (hexp : Expands expand)
    (hu : Underway t l₀ ss b₀ pending placed s) {st : Statement} (hst : st ∈ ss) {before after : List Block} {b : Block}
    {content : List NodeId} {made : Session} (hm : Statement.Makes expand s st before b after content made) :
    Underway t l₀ ss b₀ pending placed made ∧ ∃ D, Made t content D made.tree := by
  have hb : b ∈ ss.flatMap Statement.blocks := List.mem_flatMap.mpr ⟨st, hst, by rw [hm.blocks]; simp⟩
  have hwf := hu.edited.wellFormed
  have hstore := ((hl.owned_block hb).edited hu.edited).inStore
  have hfinish : Expanded s.tree.size s made → Fresh s.tree.size made.tree content →
      Underway t l₀ ss b₀ pending placed made ∧ ∃ D, Made t content D made.tree := fun hed hfresh =>
    ⟨hu.expanded hl hed, _, hfresh.made hl hed.tree.zone hu.edited.grows⟩
  cases hm with
  | @loop list iterator _ items _ _ hitems hmade =>
    obtain ⟨hed, hfresh⟩ := iterate_spec hexp iterator items hwf hstore
    rw [hmade] at hed hfresh
    exact hfinish hed (hfresh content rfl)
  | condition hholds hmade =>
    obtain ⟨hed, hfresh⟩ := expandBody_spec hexp hwf hstore
    rw [hmade] at hed hfresh
    exact hfinish hed (hfresh content rfl)
  | choice hholding hsplit hplace hmade =>
    obtain ⟨hed, hfresh⟩ := expandBody_spec hexp hwf hstore
    rw [hmade] at hed hfresh
    exact hfinish hed (hfresh content rfl)

/-- The content made is placed, and stays when the other blocks of its statement are dropped. -/
theorem Underway.hands {expand : NodeId → Merge Unit} (hexp : Expands expand) {st : Statement} (hst : st ∈ ss)
    {rest : List Block} (hu : Underway t l₀ ss b₀ (st.blocks ++ rest) placed s) (hb₀ : b₀ ∈ ss.flatMap Statement.blocks)
    {before after : List Block} {b : Block} {content : List NodeId} {made : Session}
    (hm : Statement.Makes expand s st before b after content made) :
    Underway t l₀ ss b₀ rest placed (Block.dropAll after (b.giveWay content (Block.dropAll before made)).2) ∧
      Underway t l₀ ss b (after ++ rest) content (b.giveWay content (Block.dropAll before made)).2 ∧
      Underway t l₀ ss b rest content (Block.dropAll after (b.giveWay content (Block.dropAll before made)).2) := by
  obtain ⟨hmade, D, hc⟩ := hu.makes hl hexp hst hm
  have hb : b ∈ ss.flatMap Statement.blocks := List.mem_flatMap.mpr ⟨st, hst, by rw [hm.blocks]; simp⟩
  rw [hm.blocks, List.append_assoc, List.cons_append] at hmade
  obtain ⟨hbefore, hc⟩ := hmade.dropAll hl hb₀ before hc
  have hplaced := hbefore.place hl hc.content (hc.insertable hl hb)
  have hkept := hbefore.giveWay hl hb₀ hc.content (hc.insertable hl hb)
  exact ⟨(hkept.dropAll hl hb₀ after (made_nil t _)).1, hplaced, (hplaced.dropAll hl hb after (made_nil t _)).1⟩

/-- Pictures get other attributes, and nothing moves. -/
theorem Underway.showPicture (hu : Underway t l₀ ss b₀ pending placed s) {o : Operand} {b : Block}
    (hst : .picture o b ∈ ss) (v : Value) : Underway t l₀ ss b₀ pending placed (Statement.showPicture o b v s).2 := by
  have hed := edits_showPicture (fenced_zero hu.edited.wellFormed) (((hl.owned hst).blocks b List.mem_cons_self).edited hu.edited) o v
  obtain ⟨hledger, hp⟩ := showPicture_spec o b v s
  exact hu.of_parents hed.env hed.tree hledger fun x _ => hp x

/-- Carrying out a statement takes its blocks off those still to come. -/
theorem Underway.evaluate {expand : NodeId → Merge Unit} (hexp : Expands expand) {st : Statement} (hst : st ∈ ss)
    {rest : List Block} (hu : Underway t l₀ ss b₀ (st.blocks ++ rest) placed s) (hb₀ : b₀ ∈ ss.flatMap Statement.blocks)
    (hrun : st.evaluate expand s = (.ok (), s')) : Underway t l₀ ss b₀ rest placed s' := by
  rcases Statement.evaluate_cases hrun with ⟨f, o, v, rfl, hval, hins⟩ | ⟨before, b, after, content, made, hm⟩ |
    ⟨o, b, v, made, rfl, hshow, rfl⟩ | rfl
  · have hkept := hu.insert hl hb₀ hst (v := v) fun source he => hu.plain o source (he ▸ hval)
    rw [hins] at hkept
    exact hkept
  · rw [hm.run_evaluate] at hrun
    cases hrun
    exact (hu.hands hl hexp hst hb₀ hm).1
  · have hshown := hu.showPicture hl hst v
    rw [hshow] at hshown
    exact (hshown.dropAll hl hb₀ [b] (made_nil t _)).1
  · exact (hu.dropAll hl hb₀ st.blocks (made_nil t _)).1

theorem Underway.evaluateAll {expand : NodeId → Merge Unit} (hexp : Expands expand) {sts : List Statement}
    (hsts : ∀ st ∈ sts, st ∈ ss) {rest : List Block}
    (hu : Underway t l₀ ss b₀ (sts.flatMap Statement.blocks ++ rest) placed s) (hb₀ : b₀ ∈ ss.flatMap Statement.blocks)
    (hrun : Statement.evaluateAll expand sts s = (.ok (), s')) : Underway t l₀ ss b₀ rest placed s' := by
  induction sts generalizing s with
  | nil => cases hrun; exact hu
  | cons st sts ih =>
    have hst := hsts st List.mem_cons_self
    obtain ⟨s₁, hone, hrest⟩ := Statement.evaluateAll_cons_eq_ok hrun
    rw [List.flatMap_cons, List.append_assoc] at hu
    exact ih (fun st' hst' => hsts st' (List.mem_cons_of_mem st hst')) (hu.evaluate hl hexp hst hb₀ hone) hrest

/-! ## What stays in the part -/

theorem Laid.not_frees_root (l : Ledger) : ¬ l₀.Frees l root := by
  rintro ⟨hpos, -, -⟩
  rw [hl.covers.nodes] at hpos
  obtain ⟨b, hb, hown⟩ := List.mem_flatMap.mp (List.count_pos_iff.mp hpos)
  obtain ⟨p, hp⟩ := hl.exists_parent hb
  have hbound := Block.bounded_of_resolve? (hl.outlined.resolves_block hb)
  unfold Block.ownNodes Block.hasOwnBoundaries at hown
  have hsame : ∀ {a c : NodeId}, root ∈ [a, c] → t.parent a = some p → t.parent a = t.parent c → False := by
    intro a c hmem ha hac
    simp only [List.mem_cons, List.not_mem_nil, or_false] at hmem
    rcases hmem with rfl | rfl
    · rw [hl.wellFormed.top] at ha; cases ha
    · rw [hac, hl.wellFormed.top] at ha; cases ha
  generalize b.kind = k, b.startNode = s, b.endNode = e at hbound hown hp
  cases hbound with
  | image => cases hown
  | row _ _ _ hpar => exact hsame hown hp hpar
  | paragraph _ _ _ hpar => exact hsame hown hp hpar
  | inline => cases hown

/-- Content is in the part while nothing above its place has left. -/
theorem Underway.attached_iff (hu : Underway t l₀ ss b₀ pending placed s) (hb₀ : b₀ ∈ ss.flatMap Statement.blocks)
    {c : NodeId} (hc : c ∈ placed) : s.tree.isAttached c = true ↔
      ∀ a, t.Within a b₀.startNode → a ≠ b₀.startNode → ¬ l₀.Frees s.ledger a := by
  obtain ⟨hge, -, hcp⟩ := hu.placed c hc
  obtain ⟨p, hp⟩ := hl.exists_parent hb₀
  rw [hp] at hcp
  have hcr : c ≠ root := fun he => Nat.not_lt_of_le hge (he ▸ hl.wellFormed.rooted)
  have hpb : t.Within p b₀.startNode := within_of_parent hp
  have habove : ∀ {x : NodeId}, t.Within x p → t.Within x b₀.startNode ∧ x ≠ b₀.startNode := by
    intro x hx
    refine ⟨within_trans hx hpb, ?_⟩
    rintro rfl
    exact hl.wellFormed.not_within_of_parent hp hx
  rw [hu.edited.wellFormed.isAttached_iff]
  constructor
  · intro hw a ha hne hf
    have hap : t.Within a p := within_parent_of_ne ha (Ne.symm hne) hp
    -- going up from the content one comes by every node above its place
    have hup : ∀ {x : NodeId}, t.Within a x → t.Within x p → s.tree.Within root x → s.tree.Within root a := by
      intro x hax
      induction hax with
      | refl => exact fun _ hr => hr
      | @tail q x haq hq ih =>
        intro hxp hr
        obtain ⟨hxb, hxne⟩ := habove hxp
        rcases within_iff.mp hr with he | ⟨q', hq', hr'⟩
        · rw [he, hl.wellFormed.top] at hq; cases hq
        · by_cases hfx : l₀.Frees s.ledger x
          · rw [hu.gone b₀ hb₀ x hxb hxne hfx] at hq'
            cases hq'
          · rw [hu.kept b₀ hb₀ x hxb hxne hfx, hq] at hq'
            cases hq'
            exact ih (within_trans (within_of_parent hq) hxp) hr'
    have hra := hup hap (within_refl t p) (within_parent_of_ne hw hcr hcp)
    have har := within_of_parent_none (hu.gone b₀ hb₀ a ha hne hf) hra
    exact hl.not_frees_root s.ledger (har ▸ hf)
  · intro hno
    have hdown : ∀ {x : NodeId}, t.Within root x → t.Within x p → s.tree.Within root x := by
      intro x hx
      induction hx with
      | refl => exact fun _ => within_refl _ _
      | @tail q x _ hq ih =>
        intro hxp
        obtain ⟨hxb, hxne⟩ := habove hxp
        refine within_parent (ih (within_trans (within_of_parent hq) hxp)) ?_
        rw [hu.kept b₀ hb₀ x hxb hxne (hno x hxb hxne)]
        exact hq
    have hrp := (hl.outlined.below_root hl.wellFormed hl.container hl.apart hb₀)
    exact within_parent (hdown (within_parent_of_ne hrp.1 hrp.2 hp) (within_refl t p)) hcp

end steps

/-- The content of a block is in the part right when it is placed and still when all statements
    are carried out, just when nothing above the block's first boundary is the boundary of
    blocks without being pinned. -/
theorem attached_iff_never_freed {r : Registry} {n : Nat} {t : Tree} (h : t.WellFormed) (hroot : t.isElement root = false)
    {ss : List Statement} {l : Ledger} (hbuild : Outline.ofFields r t (t.fields root) = .ok (ss, l))
    (hapart : Apart t (ss.flatMap topFields)) {env : Environment}
    (hplain : env.Plain)
    {l' : Ledger} {last : Session} (hrun : below r (n + 1) root ⟨t, env, l'⟩ = (.ok (), last))
    {done rest : List Statement} {st : Statement} (hsplit : ss = done ++ st :: rest) {s : Session}
    (hdone : Statement.evaluateAll (below r n) done ⟨t, env, l⟩ = (.ok (), s)) {before after : List Block} {b : Block}
    {content : List NodeId} {made : Session}
    (hmakes : Statement.Makes (below r n) s st before b after content made) {c : NodeId} (hc : c ∈ content) :
    ((b.giveWay content (Block.dropAll before made)).2.tree.isAttached c = true ∧ last.tree.isAttached c = true) ↔
      ∀ a, t.Within a b.startNode → a ≠ b.startNode → l.nodeCount a = 0 ∨ l.isPinned a = true := by
  have hl : Laid r t ss l := ⟨h, hroot, outlined_of_takeAll hbuild, hapart, covers_of_ofFields hbuild⟩
  have hst : st ∈ ss := by rw [hsplit]; simp
  have hb : b ∈ ss.flatMap Statement.blocks := List.mem_flatMap.mpr ⟨st, hst, by rw [hmakes.blocks]; simp⟩
  have hblocks : ss.flatMap Statement.blocks =
      done.flatMap Statement.blocks ++ (st.blocks ++ rest.flatMap Statement.blocks) := by
    rw [hsplit, List.flatMap_append, List.flatMap_cons]
  have hfirst : Underway t l ss b (ss.flatMap Statement.blocks) [] ⟨t, env, l⟩ := by
    refine ⟨hplain, .refl (fenced_zero h), hl.covers, rfl, fun _ => id, fun _ _ _ _ _ _ => rfl, fun b' hb' x hx hne hf => ?_,
      fun _ _ => rfl, fun _ hc => nomatch hc⟩
    exact absurd hf.1 (hf.2.2 ▸ Nat.lt_irrefl 0)
  -- up to the statement, over it, and to the end
  have hexp := expands_below r n
  have hbefore : Underway t l ss b (st.blocks ++ rest.flatMap Statement.blocks) [] s :=
    Underway.evaluateAll hl hexp (fun st' hst' => by rw [hsplit]; exact List.mem_append_left _ hst') (hblocks ▸ hfirst) hb hdone
  obtain ⟨-, hplaced, hover⟩ := hbefore.hands hl hexp hst hb hmakes
  obtain ⟨last', hrest, htree⟩ : ∃ last', Statement.evaluateAll (below r n) rest
      (Block.dropAll after (b.giveWay content (Block.dropAll before made)).2) = (.ok (), last') ∧ last.tree = last'.tree := by
    have hall : Statement.evaluateAll (below r n) ss ⟨t, env, l⟩ = Statement.evaluateAll (below r n) rest
        (Block.dropAll after (b.giveWay content (Block.dropAll before made)).2) := by
      rw [hsplit, Statement.run_evaluateAll_append, hdone]
      simp only
      rw [Statement.run_evaluateAll_cons, hmakes.run_evaluate]
    rw [run_below_succ, hbuild] at hrun
    simp only [run_underLedger, hall] at hrun
    have hok := congrArg Prod.fst hrun
    have htree := congrArg (fun out => out.2.tree) hrun
    exact ⟨(Statement.evaluateAll (below r n) rest
      (Block.dropAll after (b.giveWay content (Block.dropAll before made)).2)).2, Prod.ext hok rfl, htree.symm⟩
  have hlast : Underway t l ss b [] content last' :=
    Underway.evaluateAll hl hexp (fun st' hst' => by rw [hsplit]; exact List.mem_append_right _ (List.mem_cons_of_mem st hst'))
      ((List.append_nil (rest.flatMap Statement.blocks)).symm ▸ hover) hb hrest
  rw [htree]
  rw [hplaced.attached_iff hl hb hc, hlast.attached_iff hl hb hc]
  constructor
  · rintro ⟨-, hno⟩ a ha hne
    by_contra hcon
    rw [not_or] at hcon
    refine hno a ha hne ⟨Nat.pos_of_ne_zero hcon.1, fun hp => hcon.2 (List.contains_iff_mem.mpr hp), ?_⟩
    rw [hlast.covers.nodes]
    rfl
  · intro hall
    have hno : ∀ (l₂ : Ledger) (a : NodeId), t.Within a b.startNode → a ≠ b.startNode → ¬ l.Frees l₂ a := by
      rintro l₂ a ha hne ⟨hpos, hpin, -⟩
      rcases hall a ha hne with hz | hp
      · exact Nat.ne_of_gt hpos hz
      · exact hpin (List.contains_iff_mem.mp hp)
    exact ⟨hno _, hno _⟩

/-! ## A row that holds the paragraphs of another block -/

/-- A table of three rows: a conditional starts in the first and ends in the last, and another
    one stands in a second paragraph of the last. -/
def stacked : Tree :=
  ⟨#[⟨.container, none, [1], .none⟩, element 0 "w:tbl" [2, 5, 7],
    element 1 Word.tableRow [3], element 2 Word.paragraph [4], field 3 "a:if",
    element 1 Word.tableRow [6], element 5 Word.paragraph [],
    element 1 Word.tableRow [8, 10], element 7 Word.paragraph [9], field 8 "a:endIf",
    element 7 Word.paragraph [11, 12, 13], field 10 "b:if", element 10 Word.run [], field 10 "b:endIf"]⟩
where
  element (parent : NodeId) (name : String) (children : List NodeId) : Node := ⟨.element name [], some parent, children, .none⟩
  field (parent : NodeId) (directive : String) : Node :=
    ⟨.element Word.simpleField [(Word.fieldInstruction, "MERGEFIELD " ++ directive)], some parent, [], .none⟩

namespace Stacked

def env : Environment := ⟨[("a", .boolean true), ("b", .boolean true)], [], .lenient, .empty⟩

def fieldAt (marker : NodeId) (directive : String) : Field := ⟨marker, directive, marker, [], .simple, true, .none⟩

def rows : Condition := ⟨⟨"a", []⟩, none, ⟨.row, fieldAt 4 "a:if", fieldAt 9 "a:endIf", 2, 7, [5]⟩⟩

def runs : Condition := ⟨⟨"b", []⟩, none, ⟨.inline, fieldAt 11 "b:if", fieldAt 13 "b:endIf", 11, 13, [12]⟩⟩

def statements : List Statement := [.condition rows, .condition runs]

def ledger : Ledger := ⟨[13, 11, 9, 4], [7, 2], [10, 10]⟩

def start : Session := ⟨stacked, env, ledger⟩

/-- The session behind the first conditional. -/
def between : Session := (Statement.evaluateAll (below Registry.stock 1) [.condition rows] start).2

theorem wellFormed : stacked.WellFormed := wellFormed_of_earlier (by decide) (by decide) (by decide)

theorem built : Outline.ofFields Registry.stock stacked (stacked.fields root) = .ok (statements, ledger) := by cbv

theorem apart : Apart stacked (statements.flatMap topFields) := (apart_iff wellFormed).mpr (by decide)

theorem plain : env.Plain := Environment.evaluate_ne_markup (by decide)

theorem run_first : Statement.evaluateAll (below Registry.stock 1) [.condition rows] start = (.ok (), between) :=
  Prod.ext (by cbv) rfl

theorem run_all : below Registry.stock 2 root ⟨stacked, env, .empty⟩ =
    (.ok (), (below Registry.stock 2 root ⟨stacked, env, .empty⟩).2) := Prod.ext (by cbv) rfl

theorem makes_rows : Statement.Makes (below Registry.stock 1) start (.condition rows) [] rows.block [] [15]
    (rows.block.expandBody (below Registry.stock 1) start).2 := .condition (by cbv) (Prod.ext (by cbv) rfl)

theorem makes_runs : Statement.Makes (below Registry.stock 1) between (.condition runs) [] runs.block [] [18]
    (runs.block.expandBody (below Registry.stock 1) between).2 := .condition (by cbv) (Prod.ext (by cbv) rfl)

end Stacked

open Stacked in
/-- The last row leaves with the block it bounds, and takes the content of the other along. -/
theorem content_lost_with_row : ∃ (t : Tree) (env : Environment) (ss : List Statement) (l : Ledger) (last : Session),
    t.WellFormed ∧ t.isElement root = false ∧ env.reaches Content.isMarkup = false ∧
      Outline.ofFields Registry.stock t (t.fields root) = .ok (ss, l) ∧ Apart t (ss.flatMap topFields) ∧
      below Registry.stock 2 root ⟨t, env, .empty⟩ = (.ok (), last) ∧
      ∃ done st rest s before b after content made, ss = done ++ st :: rest ∧
        Statement.evaluateAll (below Registry.stock 1) done ⟨t, env, l⟩ = (.ok (), s) ∧
        Statement.Makes (below Registry.stock 1) s st before b after content made ∧
        ∃ c ∈ content, last.tree.isAttached c = false :=
  ⟨stacked, env, statements, ledger, _, wellFormed, by decide, by decide, built, apart, run_all, [.condition rows],
    .condition runs, [], between, [], runs.block, [], [18], _, rfl, run_first, makes_runs, 18, List.mem_singleton_self 18,
    by cbv⟩

open Stacked in
/-- The content of the block that the rows bound stays. -/
theorem content_stays_between_rows : stacked.WellFormed ∧ env.Plain ∧ Apart stacked (statements.flatMap topFields) ∧
    ((((rows.block.giveWay [15] (rows.block.expandBody (below Registry.stock 1) start).2).2.tree.isAttached 15 = true) ∧
      (below Registry.stock 2 root ⟨stacked, env, .empty⟩).2.tree.isAttached 15 = true) ↔
      ∀ a, stacked.Within a rows.block.startNode → a ≠ rows.block.startNode →
        ledger.nodeCount a = 0 ∨ ledger.isPinned a = true) := by
  have hsplit : statements = [] ++ .condition rows :: [.condition runs] := rfl
  have hdone : Statement.evaluateAll (below Registry.stock 1) [] ⟨stacked, env, ledger⟩ = (.ok (), start) := rfl
  exact ⟨wellFormed, plain, apart, attached_iff_never_freed wellFormed (by decide) built apart plain run_all hsplit hdone
    makes_rows (List.mem_singleton_self 15)⟩

end MailMerge
