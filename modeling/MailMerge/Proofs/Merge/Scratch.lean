/-
  MailMerge.Proofs.Merge.Scratch — expanding a block works on copies.

  The body is copied into a scratch node, the copy is merged there, and its children are taken
  out of the scratch node again. Merging the copy makes more scratch nodes: one for the copy of
  each block in it, and one for each piece of markup that is read. Which they are is told level
  by level (`Merge.Scratch`). None of them is ever put anywhere. A scratch node stands nowhere
  when it has been used, and no later step gives a parent to an older node that has none
  (`Tree.Scrap.evaluateAll`), so it is not in anything that is handed on.

  Proved: expanding a block leaves all older nodes alone, and what it makes are new nodes that
  stand nowhere, each with a subtree of its own of new nodes only, and without any scratch node
  in it (`expandBody_on_copies`).
-/

import MailMerge.Proofs.Merge.Gone
import MailMerge.Proofs.Merge.Nesting

namespace MailMerge

open MailMerge.Tree Merge Outline

/-! ## Scratch nodes -/

/-- The statement is about to read markup into a scratch node. -/
def Statement.ReadsInto (st : Statement) (s : Session) (x : NodeId) : Prop :=
  ∃ f o source, st = .insertion f o ∧ o.evaluate s.env = .ok (.content (.markup source)) ∧
    x = (s.tree.createElement Splice.fragmentName).1

/-- The scratch nodes that are made while what is below a node is merged: for the markup that is
    inserted on this level, for the copies of bodies, and while these copies are merged. -/
def Merge.Scratch (r : Registry) : (levels : Nat) → NodeId → Session → NodeId → Prop
  | 0, _, _, _ => False
  | n + 1, id, s, x => ∃ done st rest l s',
      ofFields r s.tree (s.tree.fields id) = .ok (done ++ st :: rest, l) ∧
      Statement.evaluateAll (below r n) done { s with ledger := l } = (.ok (), s') ∧
      (st.ReadsInto s' x ∨ ∃ b s'', st.Copies (below r n) s' b s'' ∧ (x = (Block.copyNodes s''.tree b.body).1 ∨
        Scratch r n (Block.copyNodes s''.tree b.body).1 (b.copied s'') x))

/-- The scratch nodes that are made while a block is expanded. -/
def Block.Scratch (r : Registry) (levels : Nat) (b : Block) (s : Session) (x : NodeId) : Prop :=
  x = (copyNodes s.tree b.body).1 ∨ Merge.Scratch r levels (copyNodes s.tree b.body).1 (b.copied s) x

/-- A node from `m` on that was made to hold copies or markup, and stands nowhere. -/
structure Tree.Scrap (m : Nat) (t : Tree) (x : NodeId) : Prop where
  new : m ≤ x
  lt_size : x < t.size
  parent : t.parent x = none
  name : t.isNamed Block.containerName x = true ∨ t.isNamed Splice.fragmentName x = true

theorem Block.grows_giveWay (b : Block) (content : List NodeId) (s : Session) :
    s.tree.size ≤ (b.giveWay content s).2.tree.size := by
  rw [run_giveWay, replace_eq]
  have hins : Stays 0 s.tree (s.tree.insertAllAfter b.startNode content) :=
    stays_insertAllAfter (fun x _ => Nat.zero_le x) s.tree b.startNode
  exact Nat.le_trans hins.grows (stays_detachAll 0 _ _).grows

theorem Block.grows_dropAll (bs : List Block) (s : Session) : s.tree.size ≤ (dropAll bs s).tree.size := by
  induction bs generalizing s with
  | nil => exact Nat.le_refl _
  | cons b bs ih => exact Nat.le_trans (b.grows_giveWay [] s) (ih _)

namespace Tree.Scrap

variable {m : Nat} {t u : Tree} {x : NodeId}

theorem of_le {m' : Nat} (h : Scrap m t x) (hm : m' ≤ m) : Scrap m' t x :=
  ⟨Nat.le_trans hm h.new, h.lt_size, h.parent, h.name⟩

/-- A step that names it as before and does not put it anywhere. -/
theorem next (h : Scrap m t x) (hg : t.size ≤ u.size) (hname : u.name? x = t.name? x)
    (hp : ∀ p, u.parent x = some p → ∃ q, t.parent x = some q) : Scrap m u x where
  new := h.new
  lt_size := Nat.lt_of_lt_of_le h.lt_size hg
  parent := by
    by_contra hsome
    obtain ⟨p, hxp⟩ := Option.ne_none_iff_exists'.mp hsome
    obtain ⟨q, hxq⟩ := hp p hxp
    rw [h.parent] at hxq
    cases hxq
  name := by
    rw [isNamed_of_name? hname, isNamed_of_name? hname]
    exact h.name

theorem beyond {n : Nat} (h : Scrap m t x) (hu : Beyond n t u) (hn : t.size ≤ n) : Scrap m u x := by
  have hlt : x < n := Nat.lt_of_lt_of_le h.lt_size hn
  exact h.next hu.grows (name?_congr (hu.kind_eq hlt)) fun p hp => ⟨p, by rwa [← hu.parent_eq hlt]⟩

theorem detachAll (h : Scrap m t x) (ids : List NodeId) : Scrap m (t.detachAll ids) x := by
  refine h.next (stays_detachAll 0 t ids).grows (name?_congr (kind_detachAll t ids x)) fun p hp => ⟨p, ?_⟩
  rw [parent_detachAll] at hp
  split at hp
  · cases hp
  · exact hp

/-- A scratch node stands in nothing but itself. -/
theorem not_within {c : NodeId} (h : Scrap m t x) (hne : x ≠ c) : ¬ t.Within c x := fun hw =>
  hne (within_of_parent_none h.parent hw).symm

section steps

variable {expand : NodeId → Merge Unit} (hexp : Expands expand) {s s' : Session} (hs : s.tree.WellFormed)

include hexp hs

theorem evaluate {st : Statement} (hown : st.Owned (fun x => 0 ≤ x) s.tree) (hrun : st.evaluate expand s = (.ok (), s'))
    (h : Scrap m s.tree x) : Scrap m s'.tree x := by
  obtain ⟨hname, -, hparent⟩ := Statement.evaluate_bystanders hexp hs hown hrun h.lt_size
  refine h.next (Statement.lifted_evaluate hexp hs hown hrun).grows hname fun p hp => ?_
  rcases hparent p hp with hp | ⟨w, -, hw, -⟩
  · exact ⟨p, hp⟩
  · exact ⟨w, hw⟩

/-- What statements do later puts no scratch node anywhere. -/
theorem evaluateAll {sts : List Statement} (hown : ∀ st ∈ sts, st.Owned (fun x => 0 ≤ x) s.tree)
    (hrun : Statement.evaluateAll expand sts s = (.ok (), s')) (h : Scrap m s.tree x) : Scrap m s'.tree x := by
  induction sts generalizing s with
  | nil =>
    cases hrun
    exact h
  | cons st sts ih =>
    have hst := hown st List.mem_cons_self
    have hed := (edits_evaluate hexp (fenced_zero hs) hst fun _ _ hx => hx).tree
    obtain ⟨s₁, hone, hrest⟩ := Statement.evaluateAll_cons_eq_ok hrun
    rw [hone] at hed
    refine ih hed.wellFormed (fun st' hst' => ?_) hrest (h.evaluate hexp hs hst hone)
    exact (hown st' (List.mem_cons_of_mem st hst')).edited hed

end steps

/-- Nothing below a node gives a parent to a scratch node. -/
theorem below {r : Registry} {n : Nat} {id : NodeId} {s last : Session} (hs : s.tree.WellFormed)
    (hrun : Merge.below r n id s = (.ok (), last)) (h : Scrap m s.tree x) : Scrap m last.tree x := by
  cases n with
  | zero => cases hrun
  | succ n =>
    obtain ⟨ss, l, last', hbuild, hall, rfl⟩ := run_below_eq_ok.mp hrun
    have hown := Tree.Zone.owned_statements (fenced_zero hs) (fun _ hx => hx) (Nat.zero_le id) (outlined_of_takeAll hbuild)
    have hlast := evaluateAll (s := { s with ledger := l }) (expands_below r n) hs hown hall h
    exact hlast

/-- It is not handed on with content that it is not part of. -/
theorem hand {s : Session} (h : Scrap m s.tree x) {content : List NodeId} (hx : x ∉ content) (before : List Block) (b : Block)
    (after : List Block) : Scrap m (Block.dropAll after (b.giveWay content (Block.dropAll before s)).2).tree x := by
  refine h.next ?_ (name?_congr ?_) fun p hp => ⟨p, ?_⟩
  · exact Nat.le_trans (Block.grows_dropAll before s) (Nat.le_trans (b.grows_giveWay content _) (Block.grows_dropAll after _))
  · rw [Block.kind_dropAll, Block.kind_giveWay, Block.kind_dropAll]
  · rw [Block.parent_hand before b after s hx] at hp
    split at hp
    · cases hp
    · exact hp

end Tree.Scrap

/-! ## Markup that is read -/

/-- The scratch node that markup is read into is left behind when the markup is put in place. -/
theorem Splice.scrap_putMarkup {t u : Tree} {f : Field} {source : String} (h : t.WellFormed) (hf : f.Owned (fun x => 0 ≤ x) t)
    (hput : putMarkup f source t = (.ok (), u)) : Scrap t.size u t.size := by
  unfold putMarkup at hput
  simp only [createElement, create_fst] at hput
  cases hread : (t.create (.element fragmentName []) .none).2.readInto t.size source 0 with
  | mk result v =>
    rw [hread] at hput
    cases result with
    | error e => cases hput
    | ok _ =>
      cases hput
      obtain ⟨hbeyond, hkind⟩ := beyond_of_readInto h hread
      have hsize := size_create t (.element fragmentName []) .none
      have hstay := stays_readInto (Nat.le_of_eq hsize.symm) t.size source 0
      rw [hread] at hstay
      have hlt : t.size < v.size := Nat.lt_of_lt_of_le (by rw [hsize]; exact Nat.lt_succ_self _) hstay.grows
      have hread : Scrap t.size v t.size := by
        refine ⟨Nat.le_refl _, hlt, ?_, Or.inr (by rw [isNamed_of_kind hkind]; rfl)⟩
        by_contra hsome
        obtain ⟨p, hp⟩ := Option.ne_none_iff_exists'.mp hsome
        have hp := hstay.parent _ (Nat.lt_succ_self _) p hp
        rw [parent_create, parent_of_size_le (Nat.le_refl _)] at hp
        cases hp
      -- the elements of the markup come behind the scratch node, so it counts as an older one
      have hids : ∀ x ∈ v.elementChildren t.size, v.parent x = some t.size ∧ t.size + 1 ≤ x := fun x hx => by
        have hxp := hbeyond.wellFormed.parent_of_mem (List.mem_filter.mp hx).1
        have hge : t.size ≤ x := hbeyond.zone.lower _ _ hxp (Nat.le_refl _)
        have hne : x ≠ t.size := fun he => hbeyond.wellFormed.not_within_of_parent hxp (he ▸ within_refl v x)
        exact ⟨hxp, Nat.lt_of_le_of_ne hge (Ne.symm hne)⟩
      have hown : f.Owned (fun x => 0 ≤ x) v := fun a ha =>
        ⟨Nat.zero_le a, (hbeyond.edited (fenced_zero h) fun _ _ => Nat.zero_le _).hosts (hf a ha).2⟩
      have hfirst : f.first < t.size + 1 := Nat.lt_succ_of_lt (hf f.first f.first_mem_anchors).2.lt_size
      have hlift := lifts_putElements hbeyond.wellFormed hlt hlt hids hown hfirst fun a ha x hx hax =>
        Nat.not_lt_of_le (hbeyond.zone.within (Nat.le_refl t.size) hx)
          (Fenced.lt_of_within hbeyond.zone (hf a ha).2.lt_size hax)
      refine hread.next hlift.grows (name?_congr (hlift.kind _ (Nat.lt_succ_self _))) fun p hp => ?_
      rcases hlift.parent _ (Nat.lt_succ_self _) p hp with hp | ⟨w, -, hw, -⟩
      · exact ⟨p, hp⟩
      · exact ⟨w, hw⟩

theorem Statement.ReadsInto.scrap {expand : NodeId → Merge Unit} {st : Statement} {s s' : Session} {x : NodeId}
    (hx : st.ReadsInto s x) (h : s.tree.WellFormed) (hown : st.Owned (fun x => 0 ≤ x) s.tree)
    (hrun : st.evaluate expand s = (.ok (), s')) : Scrap s.tree.size s'.tree x := by
  obtain ⟨f, o, source, rfl, hv, rfl⟩ := hx
  obtain ⟨v, hv', hins⟩ := evaluate_insertion_eq_ok hrun
  rw [hv] at hv'
  cases hv'
  rw [insert, run_bind_ok (run_withTree _ s)] at hins
  cases hput : Splice.putMarkup f source s.tree with
  | mk result u =>
    rw [hput] at hins
    cases result with
    | error e => cases hins
    | ok _ =>
      cases hins
      exact Splice.scrap_putMarkup h (hown.field f o rfl) hput

/-! ## Bodies that are expanded -/

section expansions

variable {r : Registry} {n : Nat}

/-- What is told of all scratch nodes below a node, on a number of levels. -/
def Merge.LeavesScraps (r : Registry) (n : Nat) : Prop := ∀ {id : NodeId} {s last : Session} {x : NodeId}, s.tree.WellFormed →
  below r n id s = (.ok (), last) → Scratch r n id s x → Scrap s.tree.size last.tree x

variable (hbelow : LeavesScraps r n) {b : Block} {s s' : Session} {content : List NodeId} {x : NodeId}

include hbelow

theorem scrap_expandBody (h : s.tree.WellFormed) (hb : ∀ x ∈ b.body, x ≠ root ∧ x < s.tree.size) (hx : b.Scratch r n s x)
    (hrun : b.expandBody (below r n) s = (.ok content, s')) : Scrap s.tree.size s'.tree x ∧ x ∉ content := by
  obtain ⟨hfst, hfill⟩ := Block.copyNodes_spec h (fun x hx => (hb x hx).1) fun x hx => (hb x hx).2
  have hcopied : Scrap s.tree.size (b.copied s).tree (Block.copyNodes s.tree b.body).1 :=
    ⟨Nat.le_of_eq hfst.symm, hfst ▸ hfill.lt_size, hfst ▸ hfill.parent, Or.inl (by rw [hfst]; exact isNamed_of_kind hfill.kind _)⟩
  have hw : (b.copied s).tree.WellFormed := hfill.beyond.wellFormed
  obtain ⟨last, hmerged, rfl, rfl⟩ := Block.expandBody_eq_ok hrun
  have hed := expands_below r n (Block.copyNodes s.tree b.body).1 (b.copied s) s.tree.size hfill.beyond.zone (Nat.le_of_eq hfst.symm)
  rw [hmerged] at hed
  have hscrap : Scrap s.tree.size last.tree x := by
    rcases hx with rfl | hx
    · exact hcopied.below hw hmerged
    · exact (hbelow hw hmerged hx).of_le hfill.beyond.grows
  refine ⟨hscrap.detachAll _, fun hxc => ?_⟩
  -- the children of the container have a parent
  have hp := hed.tree.wellFormed.parent_of_mem hxc
  rw [hscrap.parent] at hp
  cases hp

omit hbelow in
/-- What a loop makes of some items comes behind what it makes of the items before. -/
theorem Statement.iterate_append_eq_ok {expand : NodeId → Merge Unit} {iterator : String} {b : Block} {before items : List Value}
    {s s₁ s' : Session} {first content : List NodeId} (hbefore : iterate expand iterator b before s = (.ok first, s₁))
    (h : iterate expand iterator b (before ++ items) s = (.ok content, s')) :
    ∃ more, iterate expand iterator b items s₁ = (.ok more, s') ∧ content = first ++ more := by
  induction before generalizing s first content with
  | nil =>
    cases hbefore
    exact ⟨content, h, rfl⟩
  | cons item before ih =>
    obtain ⟨one, made, rest, hone, hrest, rfl⟩ := iterate_cons_eq_ok hbefore
    obtain ⟨one', made', rest', hone', hrest', rfl⟩ := iterate_cons_eq_ok h
    cases hone.symm.trans hone'
    obtain ⟨more, hmore, rfl⟩ := ih hrest hrest'
    exact ⟨more, hmore, (List.append_assoc one rest more).symm⟩

/-- Of the expansions for the items of a loop, those before made older nodes, and those after
    make newer ones. -/
theorem scrap_iterate (h : s.tree.WellFormed) (hb : ∀ x ∈ b.body, x ≠ root ∧ x < s.tree.size) {iterator : String}
    {before after : List Value} {item : Value} {content₀ : List NodeId} {s₀ : Session}
    (hbefore : Statement.iterate (below r n) iterator b before s = (.ok content₀, s₀))
    (hx : b.Scratch r n { s₀ with env := s₀.env.push (Scope.binding iterator item) } x)
    (hrun : Statement.iterate (below r n) iterator b (before ++ item :: after) s = (.ok content, s')) :
    Scrap s.tree.size s'.tree x ∧ x ∉ content := by
  have hexp := expands_below r n
  obtain ⟨hed₀, hfresh₀⟩ := iterate_spec hexp iterator before h hb
  rw [hbefore] at hed₀ hfresh₀
  have hb₀ : ∀ x ∈ b.body, x ≠ root ∧ x < s₀.tree.size := fun x hx =>
    ⟨(hb x hx).1, Nat.lt_of_lt_of_le (hb x hx).2 hed₀.tree.grows⟩
  obtain ⟨later, hlater, rfl⟩ := Statement.iterate_append_eq_ok hbefore hrun
  obtain ⟨first, made, more, hscoped, hrest, rfl⟩ := Statement.iterate_cons_eq_ok hlater
  obtain ⟨s₁, hbody, rfl⟩ := underScope_eq_ok hscoped
  obtain ⟨hed₁, -⟩ := expandBody_spec hexp (s := { s₀ with env := s₀.env.push (Scope.binding iterator item) })
    hed₀.tree.wellFormed hb₀
  rw [hbody] at hed₁
  obtain ⟨hscrap, hfirst⟩ := scrap_expandBody hbelow (s := { s₀ with env := s₀.env.push (Scope.binding iterator item) })
    hed₀.tree.wellFormed hb₀ hx hbody
  have hb₁ : ∀ x ∈ b.body, x ≠ root ∧ x < s₁.tree.size := fun x hx =>
    ⟨(hb x hx).1, Nat.lt_of_lt_of_le (hb₀ x hx).2 hed₁.tree.grows⟩
  obtain ⟨hed₂, hfresh₂⟩ := iterate_spec hexp (s := { s₁ with env := s₁.env.pop }) iterator after hed₁.tree.wellFormed hb₁
  rw [hrest] at hed₂ hfresh₂
  refine ⟨(hscrap.beyond hed₂.tree (Nat.le_refl _)).of_le hed₀.tree.grows, fun hxc => ?_⟩
  rcases List.mem_append.mp hxc with hxc | hxc
  · exact Nat.not_lt_of_le hscrap.new (hfresh₀ content₀ rfl x hxc).2.1
  · rcases List.mem_append.mp hxc with hxc | hxc
    · exact hfirst hxc
    · exact Nat.not_lt_of_le (hfresh₂ more rfl x hxc).1 hscrap.lt_size

omit hbelow in
/-- A statement that copies a body and goes through makes content for that block. -/
theorem Statement.Copies.makes {expand : NodeId → Merge Unit} {st : Statement} {s'' : Session} (hcopies : st.Copies expand s b s'')
    (hrun : st.evaluate expand s = (.ok (), s')) : ∃ before after content made, Makes expand s st before b after content made := by
  cases hcopies with
  | @loop list iterator _ before after item _ _ hitems =>
    rw [evaluate, run_bind_ok (run_askOperand_ok hitems _)] at hrun
    obtain ⟨content, made, hmade, -⟩ := run_bind_eq_ok hrun
    exact ⟨[], [], content, made, .loop hitems hmade⟩
  | @condition c hholds =>
    rw [evaluate, run_bind, run_ask, hholds] at hrun
    simp only [if_true] at hrun
    obtain ⟨content, made, hmade, -⟩ := run_bind_eq_ok hrun
    exact ⟨[], [], content, made, .condition hholds hmade⟩
  | @choice branches otherwise holding _ hholding hb =>
    rw [evaluate, run_bind, run_ask, hholding] at hrun
    simp only [hb] at hrun
    obtain ⟨content, made, hmade, -⟩ := run_bind_eq_ok hrun
    obtain ⟨hlt, hget⟩ := List.getElem?_eq_some_iff.mp hb
    refine ⟨_, (branches.map (·.block) ++ otherwise.toList).drop (holding.getD branches.length + 1), content, made,
      .choice hholding ?_ (List.length_take_of_le (Nat.le_of_lt hlt)) hmade⟩
    rw [← hget, List.getElem_cons_drop, List.take_append_drop]

/-- Content is put in the place of its block without the scratch nodes that it was made in. -/
theorem Statement.Copies.scrap {st : Statement} {s'' : Session} (h : s.tree.WellFormed) (hown : st.Owned (fun x => 0 ≤ x) s.tree)
    (hcopies : st.Copies (below r n) s b s'') (hx : b.Scratch r n s'' x) (hrun : st.evaluate (below r n) s = (.ok (), s')) :
    Scrap s.tree.size s'.tree x := by
  obtain ⟨before, after, content, made, hm⟩ := hcopies.makes hrun
  have hb := (hown.blocks b (by rw [hm.blocks]; simp)).inStore
  obtain ⟨hscrap, hout⟩ : Scrap s.tree.size made.tree x ∧ x ∉ content := by
    cases hm with
    | loop hitems hmade =>
      cases hcopies with
      | loop hitems' hbefore =>
        rw [hitems'] at hitems
        cases hitems
        exact scrap_iterate hbelow h hb hbefore hx hmade
    | condition _ hmade =>
      cases hcopies
      exact scrap_expandBody hbelow h hb hx hmade
    | choice _ _ _ hmade =>
      cases hcopies
      exact scrap_expandBody hbelow h hb hx hmade
  rw [hm.run_evaluate] at hrun
  cases hrun
  exact hscrap.hand hout before b after

end expansions

/-- The scratch nodes that are made below a node are left behind, on whichever level. -/
theorem leavesScraps_below (r : Registry) (n : Nat) : LeavesScraps r n := by
  induction n with
  | zero => exact fun _ hrun => by cases hrun
  | succ n ih =>
    intro id s last x h hrun hx
    have hexp := expands_below r n
    obtain ⟨ss, l, last', hbuild, hall, rfl⟩ := run_below_eq_ok.mp hrun
    obtain ⟨done, st, rest, l', s₁, hbuild', hdone, hmade⟩ := hx
    rw [hbuild'] at hbuild
    cases hbuild
    have hown := Tree.Zone.owned_statements (fenced_zero h) (fun _ hx => hx) (Nat.zero_le id) (outlined_of_takeAll hbuild')
    have hbefore := (edits_evaluateAll (s := { s with ledger := l }) hexp (fenced_zero h)
      (fun st' hst' => hown st' (List.mem_append_left _ hst')) fun _ _ _ _ hx => hx).tree
    rw [hdone] at hbefore
    have hown₁ : ∀ st' ∈ done ++ st :: rest, st'.Owned (fun x => 0 ≤ x) s₁.tree := fun st' hst' => (hown st' hst').edited hbefore
    have hst := hown₁ st (by simp)
    rw [Statement.run_evaluateAll_append, hdone] at hall
    simp only at hall
    obtain ⟨s₂, hone, hafter⟩ := Statement.evaluateAll_cons_eq_ok hall
    have hed := (edits_evaluate hexp (fenced_zero hbefore.wellFormed) hst fun _ _ hx => hx).tree
    rw [hone] at hed
    have hscrap : Scrap s₁.tree.size s₂.tree x := by
      rcases hmade with hx | ⟨b, s'', hcopies, hx⟩
      · exact hx.scrap hbefore.wellFormed hst hone
      · exact hcopies.scrap ih hbefore.wellFormed hst hx hone
    have hrest : ∀ st' ∈ rest, st'.Owned (fun x => 0 ≤ x) s₂.tree := fun st' hst' =>
      (hown₁ st' (List.mem_append_right _ (List.mem_cons_of_mem st hst'))).edited hed
    have hlast := hscrap.evaluateAll hexp hed.wellFormed hrest hafter
    exact hlast.of_le hbefore.grows

/-! ## Blocks -/

/-- The nodes of a body have a place in the part. -/
theorem Block.inStore_of_resolve? {t : Tree} (h : t.WellFormed) {start stop : Field} {b : Block}
    (hb : resolve? t start stop = some b) : ∀ x ∈ b.body, x ≠ root ∧ x < t.size := by
  obtain ⟨-, hbody, -, -⟩ := resolve?_eq_some.mp hb
  intro x hx
  rcases hbody with hbody | ⟨-, -, hnil⟩
  · rcases (between?_eq_some h).mp hbody with ⟨-, hnil⟩ | ⟨post, hl⟩
    · rw [hnil] at hx
      cases hx
    · obtain ⟨hpx, hps, hel, -⟩ := h.mem_laterElements (x := b.startNode) (y := x) (by rw [hl]; exact List.mem_append_left _ hx)
      refine ⟨?_, lt_size_of_isElement hel⟩
      rintro rfl
      exact hps (hpx.symm.trans h.top)
  · rw [hnil] at hx
    cases hx

/-- Expanding a block, whether it goes through or fails, leaves what was there as it was. What
    it makes are different new nodes that stand nowhere, with subtrees that have no node in
    common; all nodes in these are new, and no scratch node is among them. -/
theorem expandBody_on_copies {r : Registry} {n : Nat} {s : Session} (h : s.tree.WellFormed) {start stop : Field} {b : Block}
    (hb : Block.resolve? s.tree start stop = some b) :
    (∀ x < s.tree.size, (b.expandBody (below r n) s).2.tree.node x = s.tree.node x) ∧
      ∀ content s', b.expandBody (below r n) s = (.ok content, s') →
        content.Nodup ∧
        (∀ c ∈ content, s.tree.size ≤ c ∧ c < s'.tree.size ∧ s'.tree.parent c = none ∧ ∀ x, s'.tree.Within c x → s.tree.size ≤ x) ∧
        (∀ c ∈ content, ∀ d ∈ content, ∀ x, s'.tree.Within c x → s'.tree.Within d x → c = d) ∧
        ∀ x, b.Scratch r n s x → Scrap s.tree.size s'.tree x ∧ ∀ c ∈ content, ¬ s'.tree.Within c x := by
  have hstore := Block.inStore_of_resolve? h hb
  obtain ⟨hed, hfresh⟩ := expandBody_spec (expands_below r n) h hstore
  refine ⟨fun x hx => hed.tree.same hx, fun content s' hrun => ?_⟩
  rw [hrun] at hed hfresh
  have hfresh := hfresh content rfl
  refine ⟨?_, fun c hc => ?_, fun c hc d hd x hcx hdx => ?_, fun x hx => ?_⟩
  · rw [Block.run_expandBody] at hrun
    obtain ⟨hfst, hfill⟩ := Block.copyNodes_spec h (fun x hx => (hstore x hx).1) fun x hx => (hstore x hx).2
    have hmerge := expands_below r n (Block.copyNodes s.tree b.body).1 (b.copied s) s.tree.size hfill.beyond.zone
      (Nat.le_of_eq hfst.symm)
    unfold Block.copied at hmerge
    generalize below r n (Block.copyNodes s.tree b.body).1 { s with tree := (Block.copyNodes s.tree b.body).2 } = merged at hmerge hrun
    obtain ⟨result, last⟩ := merged
    cases result with
    | error e => cases hrun
    | ok _ =>
      cases hrun
      exact hmerge.tree.wellFormed.distinct _
  · obtain ⟨hge, hlt, hp⟩ := hfresh c hc
    exact ⟨hge, hlt, hp, fun x hx => hed.tree.zone.within hge hx⟩
  · rcases within_total hcx hdx with hw | hw
    · exact within_of_parent_none (hfresh d hd).2.2 hw
    · exact (within_of_parent_none (hfresh c hc).2.2 hw).symm
  · obtain ⟨hscrap, hout⟩ := scrap_expandBody (leavesScraps_below r n) h hstore hx hrun
    exact ⟨hscrap, fun c hc => hscrap.not_within fun he => hout (he ▸ hc)⟩

/-! ## Markup in a conditional -/

namespace FieldsInParagraph

def keptBlock : Block := ⟨.inline, fieldAt 2 "a:if", fieldAt 4 "a:endIf", 2, 4, [3]⟩

def atKept : Session := ⟨kept, env, .empty⟩

/-- The markup is read into the second scratch node. -/
theorem scratch_keptBlock : keptBlock.Scratch Registry.stock 1 atKept 7 := by
  refine Or.inr ⟨[], .insertion (fieldAt 6 "=f") ⟨"f", []⟩, [], .empty, { keptBlock.copied atKept with ledger := .empty }, ?_, rfl,
    Or.inl ⟨fieldAt 6 "=f", ⟨"f", []⟩, "<w:p/>", rfl, ?_, ?_⟩⟩
  · cbv
  · cbv
  · cbv

end FieldsInParagraph

open FieldsInParagraph in
/-- The paragraph in the markup is handed on, without the node that it was read into. -/
theorem keptBlock_on_copies : kept.WellFormed ∧ Block.resolve? kept (fieldAt 2 "a:if") (fieldAt 4 "a:endIf") = some keptBlock ∧
    ∃ s', keptBlock.expandBody (below Registry.stock 1) atKept = (.ok [8], s') ∧
      (∀ x < kept.size, s'.tree.node x = kept.node x) ∧ s'.tree.parent 8 = none ∧ (∀ x, s'.tree.Within 8 x → kept.size ≤ x) ∧
      Scrap kept.size s'.tree 7 ∧ ¬ s'.tree.Within 8 7 := by
  have hw : kept.WellFormed := wellFormed_of_earlier (by decide) (by decide) (by decide)
  have hb : Block.resolve? kept (fieldAt 2 "a:if") (fieldAt 4 "a:endIf") = some keptBlock := by cbv
  have hrun : keptBlock.expandBody (below Registry.stock 1) atKept =
      (.ok [8], (keptBlock.expandBody (below Registry.stock 1) atKept).2) := Prod.ext (by cbv) rfl
  obtain ⟨hold, hnew⟩ := expandBody_on_copies (r := Registry.stock) (n := 1) (s := atKept) hw hb
  obtain ⟨-, hcontent, -, hscratch⟩ := hnew _ _ hrun
  obtain ⟨-, -, hp, hin⟩ := hcontent 8 (List.mem_singleton_self 8)
  obtain ⟨hscrap, hout⟩ := hscratch 7 scratch_keptBlock
  exact ⟨hw, hb, _, hrun, hold, hp, hin, hscrap, hout 8 (List.mem_singleton_self 8)⟩

end MailMerge
