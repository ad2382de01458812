/-
  MailMerge.Proofs.Merge.Nesting — where paragraphs within paragraphs come from.

  Markup with a paragraph at its top takes the place of the paragraph around the field. In
  the copy of a block's body there may be none: the body of a block within one paragraph is
  copied without that paragraph. Then the markup takes the place of the run, and its
  paragraphs end up in the paragraph that the copy is put back into.

  All that a merge puts in the places of fields is told by `Merge.Puts`: level by level, what
  the statements put, and what is put while the copies that they make are merged.

  Proved: if all markup that is put somewhere fits there, and neither the part nor any markup
  has misplaced paragraphs itself, then no paragraph of the merged part stands directly in a
  paragraph (`paragraphs_unnested`). Markup put into a conditional within one paragraph does
  not fit (`paragraph_nested_by_conditional`).
-/

import MailMerge.Proofs.Merge.Lifted
import MailMerge.Proofs.Splice.Nesting

namespace MailMerge

open MailMerge.Tree Merge Outline

/-! ## What a merge puts where -/

namespace Statement

/-- A statement is about to put elements of markup in a field's place. -/
def Splices (st : Statement) (s : Session) (p : Splice.Put) : Prop :=
  ∃ f o source u, st = .insertion f o ∧ o.evaluate s.env = .ok (.content (.markup source)) ∧
    (s.tree.create (.element Splice.fragmentName []) .none).2.readInto s.tree.size source 0 = (.ok (), u) ∧
    p = ⟨u, f, u.elementChildren s.tree.size⟩

/-- The blocks that a statement expands, each with the session in which its body is copied. -/
inductive Copies (expand : NodeId → Merge Unit) (s : Session) : Statement → Block → Session → Prop
  | loop {list : Operand} {iterator : String} {b : Block} {before after : List Value} {item : Value} {content : List NodeId}
      {s' : Session} : list.evaluateItems s.env = .ok (before ++ item :: after) →
      iterate expand iterator b before s = (.ok content, s') →
      Copies expand s (.loop list iterator b) b { s' with env := s'.env.push (Scope.binding iterator item) }
  | condition {c : Condition} : c.holds s.env = .ok true → Copies expand s (.condition c) c.block s
  | choice {branches : List Condition} {otherwise : Option Block} {holding : Option Nat} {b : Block} :
      Condition.firstHolding s.env branches = .ok holding →
      (branches.map (·.block) ++ otherwise.toList)[holding.getD branches.length]? = some b →
      Copies expand s (.choice branches otherwise) b s

end Statement

/-- The session in which the copy of a block's body is merged. -/
def Block.copied (b : Block) (s : Session) : Session := { s with tree := (copyNodes s.tree b.body).2 }

/-- A body is expanded when its copies are merged, and they are taken out of their container. -/
theorem Block.expandBody_eq_ok {expand : NodeId → Merge Unit} {b : Block} {s s' : Session} {content : List NodeId}
    (h : b.expandBody expand s = (.ok content, s')) :
    ∃ last, expand (copyNodes s.tree b.body).1 (b.copied s) = (.ok (), last) ∧
      content = last.tree.children (copyNodes s.tree b.body).1 ∧ s' = { last with tree := last.tree.detachAll content } := by
  unfold expandBody at h
  rw [run_bind_ok (run_withTree _ s)] at h
  obtain ⟨_, last, hmerged, htaken⟩ := run_bind_eq_ok h
  cases htaken
  exact ⟨last, hmerged, rfl, rfl⟩

/-- It fails if merging them fails. -/
theorem Block.expandBody_eq_error {expand : NodeId → Merge Unit} {b : Block} {s s' : Session} {e : Failure}
    (h : b.expandBody expand s = (.error e, s')) : expand (copyNodes s.tree b.body).1 (b.copied s) = (.error e, s') := by
  unfold expandBody at h
  rw [run_bind_ok (run_withTree _ s)] at h
  rcases run_bind_eq_error h with hmerged | ⟨_, last, -, htaken⟩
  · exact hmerged
  · cases htaken

/-- What merging below a node is about to put in the places of fields, on this level or in the
    copies that are merged on the next. -/
def Merge.Puts (r : Registry) : (levels : Nat) → NodeId → Session → Splice.Put → Prop
  | 0, _, _, _ => False
  | n + 1, id, s, p => ∃ done st rest l s',
      ofFields r s.tree (s.tree.fields id) = .ok (done ++ st :: rest, l) ∧
      Statement.evaluateAll (below r n) done { s with ledger := l } = (.ok (), s') ∧
      (st.Splices s' p ∨ ∃ b s'', st.Copies (below r n) s' b s'' ∧
        Puts r n (Block.copyNodes s''.tree b.body).1 (b.copied s'') p)

/-! ## Copies of bodies -/

variable {K : NodeId → Prop}

/-- The scratch node of the copies may be closed to paragraphs, if there is none in the body. -/
theorem unnested_copyNodes {t : Tree} (hw : t.WellFormed) (h : Unnested K t) {ids : List NodeId}
    (hids : ∀ x ∈ ids, x ≠ root ∧ x < t.size) {K' : NodeId → Prop} (hK : ∀ x, K' x → K x ∨ x = t.size)
    (hclosed : K' t.size → ∀ x ∈ ids, t.isNamed Word.paragraph x = false) : Unnested K' (Block.copyNodes t ids).2 := by
  have hcreated := h.create (.element Block.containerName []) .none
  have hstart : Unnested K' (t.create (.element Block.containerName []) .none).2 := by
    refine ⟨hcreated.lt_size, fun x hx => ?_, fun x p hp hpar hb => hcreated.free x p hp hpar ?_⟩
    · rw [size_create]
      exact (hK x hx).elim (fun hx => Nat.lt_succ_of_lt (h.known x hx)) fun he => he ▸ Nat.lt_succ_self _
    · rw [parent_create] at hp
      exact hb.imp_right (Or.imp_right fun hx => (hK p hx).resolve_right (Nat.ne_of_lt (h.lt_size x p hp)))
  have hfold : ∀ (todo : List NodeId) (ws : List Twig) (u : Tree), (∀ c ∈ todo, c ∈ ids) →
      Filling t (.element Block.containerName []) ws u → Unnested K' u →
      Unnested K' (todo.foldl (fun u id => (u.deepCopy id).2.appendChild t.size (u.deepCopy id).1) u) := by
    intro todo
    induction todo with
    | nil => exact fun _ _ _ _ hu => hu
    | cons c todo ih =>
      intro ws u hin hu hunn
      have hc := hin c List.mem_cons_self
      have hcopy := deepCopy_spec hu.beyond.wellFormed (hids c hc).1
      have hkind : (u.deepCopy c).2.kind (u.deepCopy c).1 = t.kind c := by
        rw [hcopy.kind, twig, kind_twigTo, hu.beyond.kind_eq (hids c hc).2]
      have hhost : (u.deepCopy c).2.kind t.size = .element Block.containerName [] :=
        (hcopy.beyond.kind_eq hu.lt_size).trans hu.kind
      have hnext := (hunn.deepCopy hu.beyond.wellFormed (hids c hc).1).appendChild (x := (u.deepCopy c).1)
        (Nat.lt_trans hu.lt_size hcopy.lt_size) fun hpar => by
          rw [isNamed_congr hkind] at hpar
          rintro (hb | hb | hb)
          · exact absurd ((isNamed_of_kind hhost _).symm.trans hb) (by decide)
          · exact absurd ((isNamed_of_kind hhost _).symm.trans hb) (by decide)
          · rw [hclosed hb c hc] at hpar
            cases hpar
      have hone := hu.step hcopy
      rw [adopt_eq_appendChild hcopy.parent] at hone
      exact ih _ _ (fun x hx => hin x (List.mem_cons_of_mem c hx)) hone hnext
  exact hfold ids [] _ (fun _ hc => hc) (filling_create hw _ _) hstart

/-- Merging below the copy of a body, and wherever else paragraphs are not to stand, misplaces none. -/
def Keeps (expand : NodeId → Merge Unit) (b : Block) (s : Session) : Prop :=
  ∀ (K' : NodeId → Prop) (last : Session), Unnested K' (b.copied s).tree →
    expand (Block.copyNodes s.tree b.body).1 (b.copied s) = (.ok (), last) → Unnested K' last.tree

section expansions

variable {expand : NodeId → Merge Unit} (hexp : Expands expand) {b : Block} {s s' : Session} {content : List NodeId}
  {closed : Prop}

include hexp

theorem unnested_expandBody (hw : s.tree.WellFormed) (h : Unnested K s.tree) (hb : ∀ x ∈ b.body, x ≠ root ∧ x < s.tree.size)
    (hclosed : closed → ∀ x ∈ b.body, s.tree.isNamed Word.paragraph x = false) (hkeep : Keeps expand b s)
    (hrun : b.expandBody expand s = (.ok content, s')) :
    Unnested K s'.tree ∧ (closed → ∀ x ∈ content, s'.tree.isNamed Word.paragraph x = false) := by
  -- the scratch node is closed to paragraphs if the place of the copies is
  have hcopy : Unnested (fun x => K x ∨ closed ∧ x = s.tree.size) (b.copied s).tree :=
    unnested_copyNodes hw h hb (fun x hx => hx.imp_right And.right) fun hsize =>
      hclosed (hsize.elim (fun hK => absurd (h.known _ hK) (Nat.lt_irrefl _)) And.left)
  obtain ⟨hfst, hfill⟩ := Block.copyNodes_spec hw (fun x hx => (hb x hx).1) (fun x hx => (hb x hx).2)
  have hmerge := hexp (Block.copyNodes s.tree b.body).1 (b.copied s) s.tree.size hfill.beyond.zone (Nat.le_of_eq hfst.symm)
  obtain ⟨last, hmerged, rfl, rfl⟩ := Block.expandBody_eq_ok hrun
  have hlast := hkeep _ last hcopy hmerged
  rw [hmerged] at hmerge
  refine ⟨(hlast.mono fun x hx => Or.inl hx).detachAll _, fun hc x hx => ?_⟩
  rw [isNamed_congr (kind_detachAll _ _ x), Bool.eq_false_iff]
  exact fun hpar => hlast.free x _ (hmerge.tree.wellFormed.parent_of_mem hx) hpar (Or.inr (Or.inr (Or.inr ⟨hc, hfst⟩)))

theorem unnested_iterate {iterator : String} {items : List Value} (hw : s.tree.WellFormed) (h : Unnested K s.tree)
    (hb : ∀ x ∈ b.body, x ≠ root ∧ x < s.tree.size)
    (hclosed : closed → ∀ x ∈ b.body, s.tree.isNamed Word.paragraph x = false)
    (hkeep : ∀ before item after content s₁, items = before ++ item :: after →
      Statement.iterate expand iterator b before s = (.ok content, s₁) →
      Keeps expand b { s₁ with env := s₁.env.push (Scope.binding iterator item) })
    (hrun : Statement.iterate expand iterator b items s = (.ok content, s')) :
    Unnested K s'.tree ∧ (closed → ∀ x ∈ content, s'.tree.isNamed Word.paragraph x = false) := by
  induction items generalizing s content with
  | nil =>
    cases hrun
    exact ⟨h, fun _ x hx => absurd hx List.not_mem_nil⟩
  | cons item items ih =>
    obtain ⟨hspec, hfresh⟩ := underScope_spec hexp hw hb (Scope.binding iterator item)
    obtain ⟨first, s₁, more, hfirst, hrest, rfl⟩ := Statement.iterate_cons_eq_ok hrun
    rw [hfirst] at hspec hfresh
    have hone : Unnested K s₁.tree ∧ (closed → ∀ x ∈ first, s₁.tree.isNamed Word.paragraph x = false) := by
      obtain ⟨made, hbody, rfl⟩ := underScope_eq_ok hfirst
      have hmade := unnested_expandBody hexp (s := { s with env := s.env.push (Scope.binding iterator item) }) hw h hb hclosed
        (hkeep [] item items [] s rfl rfl) hbody
      exact hmade
    have hgrows := hspec.tree.grows
    have hb₁ : ∀ x ∈ b.body, x ≠ root ∧ x < s₁.tree.size := fun x hx =>
      ⟨(hb x hx).1, Nat.lt_of_lt_of_le (hb x hx).2 hgrows⟩
    obtain ⟨hspec', -⟩ := iterate_spec hexp iterator items hspec.tree.wellFormed hb₁
    rw [hrest] at hspec'
    have hlast := ih hspec.tree.wellFormed hone.1 hb₁
      (fun hc x hx => by rw [isNamed_congr (hspec.tree.kind_eq (hb x hx).2)]; exact hclosed hc x hx)
      (fun before item' after content s₂ hsplit hbefore => hkeep (item :: before) item' after (first ++ content) s₂
        (by rw [hsplit]; rfl) (by rw [Statement.run_iterate_cons, hfirst]; simp only; rw [hbefore])) hrest
    refine ⟨hlast.1, fun hc x hx => ?_⟩
    rcases List.mem_append.mp hx with hx | hx
    · rw [isNamed_congr (hspec'.tree.kind_eq (hfresh first rfl x hx).2.1)]
      exact hone.2 hc x hx
    · exact hlast.2 hc x hx

end expansions

/-! ## Statements -/

theorem Environment.Alike.reaches {e e' : Environment} (h : e.Alike e') (p : Content → Bool) : e.reaches p = e'.reaches p := by
  rw [Environment.reaches, Environment.reaches, h.context, h.scopes]

/-- Before a body is copied only new nodes have been made. -/
theorem Statement.Copies.beyond {expand : NodeId → Merge Unit} (hexp : Expands expand) {s s' : Session} (hw : s.tree.WellFormed)
    {st : Statement} (hown : st.Owned (fun x => 0 ≤ x) s.tree) {b : Block} (h : st.Copies expand s b s') :
    Beyond s.tree.size s.tree s'.tree := by
  cases h with
  | @loop list iterator _ before after item content s' hitems hbefore =>
    obtain ⟨hed, -⟩ := iterate_spec hexp iterator before hw (hown.blocks b List.mem_cons_self).inStore
    rw [hbefore] at hed
    exact hed.tree
  | condition => exact .refl (fenced_size hw)
  | choice => exact .refl (fenced_size hw)

theorem Statement.Copies.mem_copied {expand : NodeId → Merge Unit} {s s' : Session} {st : Statement} {b : Block}
    (h : st.Copies expand s b s') : b ∈ st.copied := by
  cases h with
  | loop => exact List.mem_singleton_self b
  | condition => exact List.mem_singleton_self _
  | choice _ hb => exact List.mem_of_getElem? hb

/-- Where a body is copied, its nodes are still there. -/
theorem Statement.Copies.inStore {expand : NodeId → Merge Unit} (hexp : Expands expand) {s s' : Session} (hw : s.tree.WellFormed)
    {st : Statement} (hown : st.Owned (fun x => 0 ≤ x) s.tree) {b : Block} (h : st.Copies expand s b s') :
    s'.tree.WellFormed ∧ ∀ x ∈ b.body, x ≠ root ∧ x < s'.tree.size := by
  have hed := h.beyond hexp hw hown
  obtain ⟨hne, hlt⟩ := forall₂_and.mp (hown.blocks b (mem_blocks_of_copied h.mem_copied)).inStore
  exact ⟨hed.wellFormed, fun x hx => ⟨hne x hx, Nat.lt_of_lt_of_le (hlt x hx) hed.grows⟩⟩

/-- The session of a copy reaches no more than the one before. -/
theorem Statement.Copies.spec {expand : NodeId → Merge Unit} (hexp : Expands expand) {s s' : Session} (hw : s.tree.WellFormed)
    {st : Statement} (hown : st.Owned (fun x => 0 ≤ x) s.tree) {b : Block} (h : st.Copies expand s b s') {p : Content → Bool}
    (hp : s.env.reaches p = false) :
    (b.copied s').tree.WellFormed ∧ s'.env.reaches p = false := by
  obtain ⟨hw', hb⟩ := h.inStore hexp hw hown
  refine ⟨(Block.copyNodes_spec hw' (fun x hx => (hb x hx).1) fun x hx => (hb x hx).2).2.beyond.wellFormed, ?_⟩
  cases h with
  | @loop list iterator _ before after item content s' hitems hbefore =>
    obtain ⟨hed, -⟩ := iterate_spec hexp iterator before hw (hown.blocks b List.mem_cons_self).inStore
    rw [hbefore] at hed
    have hreached : s'.env.reaches p = false := (hed.env.reaches p).trans hp
    exact Environment.reaches_push hreached (Environment.reaches_evaluateItems hp hitems item (by simp)) _
  | condition => exact hp
  | choice => exact hp

theorem Statement.Makes.unnested {expand : NodeId → Merge Unit} (hexp : Expands expand) {s made : Session}
    (hw : s.tree.WellFormed) (h : Unnested K s.tree) {st : Statement} {before after : List Block} {b : Block}
    {content : List NodeId} (hm : Makes expand s st before b after content made)
    (hb : ∀ x ∈ b.body, x ≠ root ∧ x < s.tree.size) {closed : Prop}
    (hclosed : closed → ∀ x ∈ b.body, s.tree.isNamed Word.paragraph x = false)
    (hkeep : ∀ b s', st.Copies expand s b s' → Keeps expand b s') :
    Unnested K made.tree ∧ (closed → ∀ x ∈ content, made.tree.isNamed Word.paragraph x = false) := by
  cases hm with
  | loop hitems hmade =>
    exact unnested_iterate hexp hw h hb hclosed (fun _ _ _ _ _ hsplit hbefore =>
      hkeep _ _ (.loop (hsplit ▸ hitems) hbefore)) hmade
  | condition hholds hmade => exact unnested_expandBody hexp hw h hb hclosed (hkeep _ _ (.condition hholds)) hmade
  | @choice branches otherwise holding before after b content made hholding hsplit hplace hmade =>
    refine unnested_expandBody hexp hw h hb hclosed (hkeep _ _ (.choice hholding ?_)) hmade
    rw [hsplit, ← hplace, List.getElem?_append_right (Nat.le_refl _), Nat.sub_self, List.getElem?_cons_zero]

theorem unnested_giveWay {b : Block} {content : List NodeId} {s : Session} (h : Unnested K s.tree)
    (hcontent : (∃ x ∈ content, s.tree.isNamed Word.paragraph x = true) →
      ∀ y ∈ b.startNode :: content, ∀ p, s.tree.parent y = some p → ¬ s.tree.Bars K p) :
    Unnested K (b.giveWay content s).2.tree := by
  rw [Block.run_giveWay, Block.replace_eq]
  exact (h.insertAllAfter hcontent).detachAll _

theorem unnested_dropAll (bs : List Block) {s : Session} (h : Unnested K s.tree) : Unnested K (Block.dropAll bs s).tree := by
  induction bs generalizing s with
  | nil => exact h
  | cons b bs ih => exact ih (unnested_giveWay h fun ⟨x, hx, _⟩ => absurd hx List.not_mem_nil)

section scans

variable {expand : NodeId → Merge Unit} (hexp : Expands expand) {t : Tree} (ht : t.WellFormed) (hscan : Unnested K t)
  {r : Registry} {id : NodeId} {ss : List Statement} (ho : Outlined r t (t.fields id) ss) {P : NodeId → Prop}
  (hP : ∀ w, P w → t.isNamed Word.simpleField w = true) {env : Environment} {s s' : Session} (hs : InScan P t ss env s)
  (h : Unnested K s.tree) {st : Statement} (hst : st ∈ ss)

include hexp ht hscan ho hP hs h hst

/-- Content that is made for a block goes where its body stood, or where what was around the
    body has been unwrapped. So it may have paragraphs only if the body could have some. -/
theorem unnested_hand {before after : List Block} {b : Block} {content : List NodeId} {made : Session}
    (hm : Statement.Makes expand s st before b after content made) (hkeep : ∀ b s', st.Copies expand s b s' → Keeps expand b s') :
    Unnested K (Block.dropAll after (b.giveWay content (Block.dropAll before made)).2).tree := by
  have hmem : b ∈ st.blocks := by rw [hm.blocks]; simp
  have hb := (hs.owned st hst).blocks b hmem
  obtain ⟨hed, hfresh⟩ := hm.fresh hexp hs.wellFormed hb
  have hname : ∀ x < t.size, (Block.dropAll before made).tree.name? x = t.name? x := fun x hx => by
    rw [name?_congr (Block.kind_dropAll before made x),
      name?_congr (hed.tree.kind_eq (Nat.lt_of_lt_of_le hx hs.lifted.grows)), hs.lifted.name x hx]
  have hnone : (∃ p, t.parent b.startNode = some p ∧ t.Bars K p) → ∀ x ∈ b.body, s.tree.isNamed Word.paragraph x = false := by
    rintro ⟨p, hp, hbars⟩ x hx
    have hxp := (ht.mem_laterElements (Block.mem_laterElements_of_body ht (ho.resolves hst hmem) hx).1).1.trans hp
    rw [isNamed_of_name? (hs.lifted.name x (lt_size_of_parent hxp)), Bool.eq_false_iff]
    exact fun hpar => hscan.free x p hxp hpar hbars
  obtain ⟨hunn, hclosed⟩ := hm.unnested hexp hs.wellFormed h hb.inStore hnone hkeep
  refine unnested_dropAll after (unnested_giveWay (unnested_dropAll before hunn) ?_)
  rintro ⟨x, hx, hpar⟩ y hy p hp
  rw [isNamed_congr (Block.kind_dropAll before made x)] at hpar
  have hopen : ∀ q, t.parent b.startNode = some q → ¬ t.Bars K q := fun q hq hbars => by
    rw [hclosed ⟨q, hq, hbars⟩ x hx] at hpar
    cases hpar
  rw [Block.parent_dropAll] at hp
  split at hp
  · cases hp
  · rcases List.mem_cons.mp hy with rfl | hy
    · rw [hed.tree.parent_eq hb.startNode.2] at hp
      have hlt : b.startNode < t.size :=
        ((Tree.Zone.owned_statements (fenced_zero ht) (fun _ hx => hx) (Nat.zero_le id) ho st hst).blocks b hmem).startNode.2
      cases hs.lifted.up b.startNode hlt p hp with
      | parent hq =>
        rw [bars_congr (hname p (ht.parent_lt_size hq))]
        exact hopen p hq
      | past hq hw => exact absurd (Or.inr (Or.inl (hP _ hw))) (hopen _ hq)
    · rw [(hfresh y hy).2.2] at hp
      cases hp

/-- Carrying out a statement misplaces no paragraph, if what it puts somewhere fits. -/
theorem unnested_evaluate (hreach : s.env.reaches Content.misplacesParagraph = false)
    (hfits : ∀ p, st.Splices s p → p.Fits) (hkeep : ∀ b s', st.Copies expand s b s' → Keeps expand b s')
    (hrun : st.evaluate expand s = (.ok (), s')) : Unnested K s'.tree := by
  have hown := hs.owned st hst
  rcases Statement.evaluate_cases hrun with ⟨f, o, v, rfl, hv, hins⟩ | ⟨before, b, after, content, made, hm⟩ |
    ⟨o, b, v, made, rfl, hshow, rfl⟩ | rfl
  · refine unnested_insert hs.wellFormed h (hown.field f o rfl) (fun hsimple => ?_) (Environment.reaches_evaluate hreach hv) ?_ hins
    · have hfirst := (simple_of_mem_fields ((ho.mem_fields hst).1 f o rfl) hsimple).2.2
      rw [isNamed_of_name? (hs.lifted.name f.first (lt_size_of_isNamed hfirst))]
      exact hfirst
    · rintro source rfl u hread
      exact hfits _ ⟨f, o, source, u, rfl, hv, hread, rfl⟩
  · have hhand := unnested_hand hexp ht hscan ho hP hs h hst hm hkeep
    rw [hm.run_evaluate] at hrun
    cases hrun
    exact hhand
  · have hed := edits_showPicture (fenced_zero hs.wellFormed) (hown.blocks b List.mem_cons_self) o v
    have hname := Statement.showPicture_bystanders o b v s
    obtain ⟨-, hparent⟩ := showPicture_spec o b v s
    rw [hshow] at hed hname hparent
    exact unnested_dropAll [b] (h.step hed.tree.grows (fun x _ => (hname x).1) fun x p hp => Or.inl ((hparent x).symm.trans hp))
  · exact unnested_dropAll st.blocks h

end scans

/-! ## Levels -/

/-- Merging below a node misplaces no paragraph, if what is put somewhere on any level fits. -/
theorem unnested_below (r : Registry) (n : Nat) {id : NodeId} {s last : Session} (hw : s.tree.WellFormed)
    (h : Unnested K s.tree) (hreach : s.env.reaches Content.misplacesParagraph = false)
    (hfits : ∀ p, Puts r n id s p → p.Fits) (hrun : below r n id s = (.ok (), last)) : Unnested K last.tree := by
  induction n generalizing K id s last with
  | zero => cases hrun
  | succ n ih =>
    obtain ⟨ss, l, last', hbuild, hall, rfl⟩ := run_below_eq_ok.mp hrun
    have ho := outlined_of_takeAll hbuild
    have hexp := expands_below r n
    let P : NodeId → Prop := fun w => ∃ st ∈ ss, st.Unwraps w
    have hP : ∀ w, P w → s.tree.isNamed Word.simpleField w = true := by
      rintro w ⟨st, hst, f, o, rfl, hsimple, rfl⟩
      exact (simple_of_mem_fields ((ho.mem_fields hst).1 f o rfl) hsimple).2.2
    have hstart : InScan P s.tree ss s.env { s with ledger := l } :=
      ⟨hw, .refl P s.tree, Tree.Zone.owned_statements (fenced_zero hw) (fun _ hx => hx) (Nat.zero_le id) ho, .refl s.env⟩
    have hkept : InScan P s.tree ss s.env last' ∧ Unnested K last'.tree := by
      refine Statement.evaluateAll_induction (P := fun s' => InScan P s.tree ss s.env s' ∧ Unnested K s'.tree) hall ⟨hstart, h⟩ ?_
      rintro done st rest s₁ s₂ hsplit hdone ⟨hs, hunn⟩ hone
      have hst : st ∈ ss := by rw [hsplit]; simp
      have hreach₁ : s₁.env.reaches Content.misplacesParagraph = false := (hs.env.reaches _).trans hreach
      refine ⟨hs.next hexp hw (fun st' hst' w hw => ⟨st', hst', hw⟩) hst hone,
        unnested_evaluate hexp hw h ho hP hs hunn hst hreach₁ (fun p hp => ?_) (fun b s' hcopies K' last hcopy hmerge => ?_) hone⟩
      · exact hfits p ⟨done, st, rest, l, s₁, hsplit ▸ hbuild, hdone, Or.inl hp⟩
      · obtain ⟨hwc, hreachc⟩ := hcopies.spec hexp hs.wellFormed (hs.owned st hst) hreach₁
        exact ih hwc hcopy hreachc (fun p hp => hfits p ⟨done, st, rest, l, s₁, hsplit ▸ hbuild, hdone,
          Or.inr ⟨b, s', hcopies, hp⟩⟩) hmerge
    exact hkept.2

/-- Table cells are repaired with paragraphs, and these may stand there. -/
theorem unnested_fillEmptyCells {t : Tree} (h : Unnested (fun _ => False) t) (id : NodeId) :
    Unnested (fun _ => False) (t.fillEmptyCells id) := by
  have hcells : ∀ x ∈ (t.descendants id).filter (t.isNamed Word.tableCell), t.isNamed Word.tableCell x = true := fun x hx =>
    (List.mem_filter.mp hx).2
  unfold fillEmptyCells
  generalize (t.descendants id).filter (t.isNamed Word.tableCell) = cells at hcells
  have hfold : ∀ (cells : List NodeId) (u : Tree), (∀ x ∈ cells, t.isNamed Word.tableCell x = true) → Stays t.size t u →
      Unnested (fun _ => False) u → Unnested (fun _ => False) (cells.foldl fillEmptyCells.fillCell u) := by
    intro cells
    induction cells with
    | nil => exact fun _ _ _ hu => hu
    | cons cell cells ih =>
      intro u hin hstay hu
      have hcell := hin cell List.mem_cons_self
      have hlt := lt_size_of_isNamed hcell
      refine ih _ (fun x hx => hin x (List.mem_cons_of_mem cell hx)) (hstay.trans ?_) ?_
      · unfold fillEmptyCells.fillCell
        split
        · exact .refl _ u
        · exact stays_createBelow hstay.grows _ _ cell
      · unfold fillEmptyCells.fillCell
        split
        · exact hu
        · refine (hu.create _ _).appendChild (by rw [size_create]; exact Nat.lt_succ_of_lt (Nat.lt_of_lt_of_le hlt hstay.grows)) ?_
          have hnamed : (u.create (.element Word.paragraph []) .none).2.isNamed Word.tableCell cell = true :=
            (isNamed_congr ((stays_create hstay.grows _ _).kind cell hlt) _).trans
              ((isNamed_congr (hstay.kind cell hlt) _).trans hcell)
          rintro - (hb | hb | hb)
          · rw [not_isNamed_of_isNamed hnamed (by decide)] at hb; cases hb
          · rw [not_isNamed_of_isNamed hnamed (by decide)] at hb; cases hb
          · exact hb
  exact hfold cells t hcells (.refl _ t) h

/-- If neither the part nor any markup has a misplaced paragraph, and all markup that is put
    somewhere fits there, no paragraph of the merged part stands directly in a paragraph. -/
theorem paragraphs_unnested {t : Tree} (h : t.WellFormed) (hpart : t.misplacesParagraph = false) {r : Registry}
    {env : Environment} (henv : env.reaches Content.misplacesParagraph = false)
    (hfits : ∀ p, Puts r (levelBound (t.markers root)) root ⟨t, env, Ledger.empty⟩ p → p.Fits)
    (hmerge : (t.merge r env).outcome = .ok ()) {x p : NodeId} (hp : (t.merge r env).tree.parent x = some p)
    (hx : (t.merge r env).tree.isNamed Word.paragraph x = true) : (t.merge r env).tree.isNamed Word.paragraph p = false := by
  obtain ⟨last, hrun, htree, -⟩ := merge_eq_ok hmerge
  have hunn := unnested_below r _ (s := ⟨t, env, Ledger.empty⟩) h (h.unnested hpart) henv hfits hrun
  rw [htree] at hp hx ⊢
  rw [Bool.eq_false_iff]
  exact fun hpar => (unnested_fillEmptyCells hunn root).free x p hp hx (Or.inl hpar)

/-! ## Markup in a paragraph and in a conditional -/

/-- A paragraph with fields for the given directives. -/
def fieldsInParagraph (directives : List String) : Tree :=
  ⟨⟨.container, none, [1], .none⟩ :: ⟨.element Word.paragraph [], some root, (List.range directives.length).map (· + 2), .none⟩ ::
    directives.map field |>.toArray⟩
where
  field (directive : String) : Node :=
    ⟨.element Word.simpleField [(Word.fieldInstruction, "MERGEFIELD " ++ directive)], some 1, [], .none⟩

namespace FieldsInParagraph

/-- A name for a paragraph, and one for a guard that holds. -/
def env : Environment := ⟨[("a", .boolean true), ("f", .content (.markup "<w:p/>"))], [], .lenient, .empty⟩

/-- An insertion of the paragraph, by itself. -/
def alone : Tree := fieldsInParagraph ["=f"]

/-- The same insertion in a conditional. -/
def kept : Tree := fieldsInParagraph ["a:if", "=f", "a:endIf"]

def fieldAt (marker : NodeId) (directive : String) : Field := ⟨marker, directive, marker, [], .simple, true, .none⟩

/-- The tree in which the paragraph stands aside, ready to be put in the field's place. -/
def read : Tree := ((alone.create (.element Splice.fragmentName []) .none).2.readInto alone.size "<w:p/>" 0).2

theorem wellFormed : alone.WellFormed := wellFormed_of_earlier (by decide) (by decide) (by decide)

theorem built : ofFields Registry.stock alone (alone.fields root) = .ok ([.insertion (fieldAt 2 "=f") ⟨"f", []⟩], .empty) := by cbv

theorem levels_eq : levelBound (alone.markers root) = 1 + levelsForMarkup + 1 := by decide

theorem fits_read : Splice.Put.Fits ⟨read, fieldAt 2 "=f", read.elementChildren alone.size⟩ := Or.inr ⟨1, by cbv⟩

/-- The paragraph is all that is put anywhere, and it takes the place of the one around the field. -/
theorem fits {p : Splice.Put} (hp : Puts Registry.stock (levelBound (alone.markers root)) root ⟨alone, env, .empty⟩ p) : p.Fits := by
  rw [levels_eq] at hp
  obtain ⟨done, st, rest, l, s', hbuild, hdone, hput⟩ := hp
  rw [built] at hbuild
  obtain ⟨hsplit, rfl⟩ := Prod.mk.inj (Except.ok.inj hbuild)
  obtain ⟨rfl, rfl, rfl⟩ : done = [] ∧ st = .insertion (fieldAt 2 "=f") ⟨"f", []⟩ ∧ rest = [] := by
    cases done with
    | nil => simpa using hsplit.symm
    | cons st done => simp at hsplit
  cases hdone
  rcases hput with ⟨f, o, source, u, hst, hv, hread, rfl⟩ | ⟨b, s'', hcopies, -⟩
  · cases hst
    have hsource : Operand.evaluate ⟨"f", []⟩ env = .ok (.content (.markup "<w:p/>")) := by cbv
    rw [hsource] at hv
    cases hv
    have hu : read = u := congrArg Prod.snd hread
    exact hu ▸ fits_read
  · cases hcopies

end FieldsInParagraph

open FieldsInParagraph in
/-- Within a conditional the paragraph is put in the place of a run, and ends up in the
    paragraph around the conditional. -/
theorem paragraph_nested_by_conditional : ∃ (t : Tree) (env : Environment) (x p : NodeId), t.WellFormed ∧
    t.misplacesParagraph = false ∧ env.reaches Content.misplacesParagraph = false ∧
      (t.merge Registry.stock env).outcome = .ok () ∧ (t.merge Registry.stock env).tree.parent x = some p ∧
      (t.merge Registry.stock env).tree.isAttached x = true ∧
      (t.merge Registry.stock env).tree.isNamed Word.paragraph x = true ∧
      (t.merge Registry.stock env).tree.isNamed Word.paragraph p = true :=
  ⟨kept, env, 8, 1, wellFormed_of_earlier (by decide) (by decide) (by decide), by decide, by cbv, by cbv, by cbv, by cbv,
    by cbv, by cbv⟩

open FieldsInParagraph in
/-- By itself it takes the place of the paragraph around the field. -/
theorem paragraph_in_place_of_paragraph : alone.WellFormed ∧
    (alone.merge Registry.stock env).tree.isNamed Word.paragraph 4 = true ∧
    (alone.merge Registry.stock env).tree.isNamed Word.paragraph root = false := by
  have hp : (alone.merge Registry.stock env).tree.parent 4 = some root := by cbv
  have hx : (alone.merge Registry.stock env).tree.isNamed Word.paragraph 4 = true := by cbv
  exact ⟨wellFormed, hx, paragraphs_unnested wellFormed (by decide) (by cbv) (fun _ => fits) (by cbv) hp hx⟩

end MailMerge
