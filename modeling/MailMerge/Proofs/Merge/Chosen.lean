/-
  MailMerge.Proofs.Merge.Chosen — a conditional takes one of its branches.

  The blocks of a conditional stand in one row, each from one boundary to the next, and share
  the boundaries in between. They give way one after the other; a boundary that is shared
  stays until the second of its blocks gives way, so the start of the chosen block is still
  there when its content is put in.

  Proved: the guards are asked in order, up to the first that holds or fails (`Decides`); a
  guard that fails leaves everything as it is, and no later guard is asked. Only the block
  that is decided for is expanded. When that goes through, the row holds the elements in front
  of the first boundary, the content, and the elements behind the last boundary; no field
  marker, boundary or body of any branch is left in the part (`choice_takes_one`). That is for
  blocks with rows or paragraphs as boundaries, which no other directive refers to.
-/

import MailMerge.Proofs.Block.Spliced
import MailMerge.Proofs.Merge.Gone
import MailMerge.Proofs.Merge.Scratch
import MailMerge.Proofs.Merge.Spared
import MailMerge.Proofs.Outline.Started

namespace MailMerge

open MailMerge.Tree Merge Outline

/-! ## Guards -/

/-- What the guards decide for: the block of the first branch whose guard holds, all before it
    having been asked in vain, or the last block; or the failure of a guard on the way. -/
inductive Condition.Decides (env : Environment) (otherwise : Option Block) :
    List Condition → Except Failure (Option Block) → Prop
  | none : Decides env otherwise [] (.ok otherwise)
  | fails {c : Condition} {cs : List Condition} {e : Failure} : c.holds env = .error e →
      Decides env otherwise (c :: cs) (.error e)
  | holds {c : Condition} {cs : List Condition} : c.holds env = .ok true →
      Decides env otherwise (c :: cs) (.ok (some c.block))
  | later {c : Condition} {cs : List Condition} {out : Except Failure (Option Block)} : c.holds env = .ok false →
      Decides env otherwise cs out → Decides env otherwise (c :: cs) out

namespace Condition

/-- The place that is found among the blocks is that of the block decided for. -/
theorem decides_firstHolding (env : Environment) (otherwise : Option Block) (cs : List Condition) : ∃ out, Decides env otherwise cs out ∧
    (∀ e, firstHolding env cs = .error e → out = .error e) ∧
    ∀ holding, firstHolding env cs = .ok holding →
      out = .ok (cs.map (·.block) ++ otherwise.toList)[holding.getD cs.length]? := by
  induction cs with
  | nil =>
    refine ⟨_, .none, fun e h => ?_, fun holding h => ?_⟩
    · cases h
    · cases h
      cases otherwise <;> rfl
  | cons c cs ih =>
    rw [firstHolding]
    cases hc : c.holds env with
    | error e =>
      refine ⟨_, .fails hc, fun e' h => ?_, fun holding h => ?_⟩
      · cases h
        rfl
      · cases h
    | ok kept =>
      cases kept with
      | true =>
        refine ⟨_, .holds hc, fun e h => ?_, fun holding h => ?_⟩
        · cases h
        · cases h
          rfl
      | false =>
        obtain ⟨out, hout, hfails, hholds⟩ := ih
        refine ⟨out, .later hc hout, fun e h => ?_, fun holding h => ?_⟩
        · cases hrest : firstHolding env cs with
          | error e' =>
            rw [hrest] at h
            cases h
            exact hfails e hrest
          | ok later =>
            rw [hrest] at h
            cases h
        · cases hrest : firstHolding env cs with
          | error e' =>
            rw [hrest] at h
            cases h
          | ok later =>
            rw [hrest] at h
            cases h
            rw [hholds later hrest]
            cases later <;> rfl

end Condition

/-- The content of the block decided for, if there is one. -/
def Statement.expandTaken (expand : NodeId → Merge Unit) : Option Block → Merge (List NodeId)
  | some b => b.expandBody expand
  | none => pure []

/-- The blocks of a conditional, with the chosen one given its content. -/
def Block.takeOne (bs : List Block) (content : List NodeId) (s : Session) : Option Block → Session → Prop
  | none, s' => content = [] ∧ s' = dropAll bs s
  | some b, s' => ∃ before after, bs = before ++ b :: after ∧ s' = dropAll after (b.giveWay content (dropAll before s)).2

namespace Statement

/-- A conditional asks its guards, expands the block they decide for, and lets all blocks give way. -/
theorem run_choice_of_guards (expand : NodeId → Merge Unit) (branches : List Condition) (otherwise : Option Block) (s : Session) :
    ∃ out, Condition.Decides s.env otherwise branches out ∧
      (∀ e, out = .error e → (choice branches otherwise).evaluate expand s = (.error e, s)) ∧
      ∀ taken, out = .ok taken →
        (∀ e made, expandTaken expand taken s = (.error e, made) →
          (choice branches otherwise).evaluate expand s = (.error e, made)) ∧
        ∀ content made, expandTaken expand taken s = (.ok content, made) →
          ∃ s', (choice branches otherwise).evaluate expand s = (.ok (), s') ∧
            Block.takeOne (choice branches otherwise).blocks content made taken s' := by
  obtain ⟨out, hout, hfails, hholds⟩ := Condition.decides_firstHolding s.env otherwise branches
  refine ⟨out, hout, ?_⟩
  rw [evaluate, run_bind, run_ask]
  cases hholding : Condition.firstHolding s.env branches with
  | error e =>
    rw [hfails e hholding]
    refine ⟨fun e' he => ?_, fun taken h => ?_⟩
    · cases he
      rfl
    · cases h
  | ok holding =>
    rw [hholds holding hholding]
    refine ⟨fun e h => ?_, fun taken htaken => ?_⟩
    · cases h
    simp only
    cases hb : (branches.map (·.block) ++ otherwise.toList)[holding.getD branches.length]? with
    | none =>
      rw [hb] at htaken
      cases htaken
      simp only
      refine ⟨fun e made hmade => ?_, fun content made hmade => ?_⟩
      · cases hmade
      cases hmade
      refine ⟨_, ?_, rfl, rfl⟩
      rw [run_bind_ok (run_pure _ s), run_giveWayTo_of_ne _ (Or.inr (by rw [Nat.zero_add]; exact List.getElem?_eq_none_iff.mp hb))]
      rfl
    | some b =>
      rw [hb] at htaken
      cases htaken
      obtain ⟨hlt, hget⟩ := List.getElem?_eq_some_iff.mp hb
      simp only
      refine ⟨fun e made hmade => run_bind_error (hmade : b.expandBody expand s = _) _, fun content made hmade => ?_⟩
      have hbody : b.expandBody expand s = (.ok content, made) := hmade
      have hsplit : branches.map (·.block) ++ otherwise.toList =
          (branches.map (·.block) ++ otherwise.toList).take (holding.getD branches.length) ++
            b :: (branches.map (·.block) ++ otherwise.toList).drop (holding.getD branches.length + 1) := by
        rw [← hget, List.getElem_cons_drop, List.take_append_drop]
      have hplace := List.length_take_of_le (Nat.le_of_lt hlt)
      generalize (branches.map (·.block) ++ otherwise.toList).take (holding.getD branches.length) = before at hsplit hplace
      have hrun := run_giveWayTo content before b
        ((branches.map (·.block) ++ otherwise.toList).drop (holding.getD branches.length + 1)) 0 made
      rw [Nat.zero_add, hplace, ← hsplit] at hrun
      exact ⟨_, (run_bind_ok hbody _).trans hrun, before, _, hsplit, rfl⟩

end Statement

/-! ## The row of a chain of blocks -/

namespace Block

/-- The second block begins where the first one ends. -/
def Adjoins (b c : Block) : Prop := b.endNode = c.startNode

/-- The row that blocks stand in one behind the other, cut at the first boundary and at the last. -/
structure Strung (t : Tree) (bs : List Block) (p : NodeId) (before : List NodeId) (first : NodeId) (inner : List NodeId)
    (last : NodeId) (after : List NodeId) : Prop where
  row : t.children p = before ++ first :: inner ++ last :: after
  starts : bs.head?.map (·.startNode) = some first
  ends : bs.getLast?.map (·.endNode) = some last
  /-- From the first boundary to the last there are the boundaries and the bodies between them. -/
  elements : (first :: inner).filter t.isElement = bs.flatMap fun b => b.startNode :: b.body
  endNodes : ∀ b ∈ bs, b.endNode ∈ inner ++ [last]

/-- A block with boundaries of its own, told by a scan of the tree. -/
structure Told (t : Tree) (b : Block) : Prop where
  own : b.hasOwnBoundaries = true
  resolves : resolve? t b.startField b.endField = some b
  start : ∃ r, b.startField ∈ t.fields r
  stop : ∃ r, b.endField ∈ t.fields r

variable {t : Tree} (h : t.WellFormed) {b : Block}

theorem Told.kind_ne_image (hb : b.Told t) : b.kind ≠ .image := fun hk => by simpa [hasOwnBoundaries, hk] using hb.own

theorem Told.ownNodes (hb : b.Told t) : b.ownNodes = [b.startNode, b.endNode] := by rw [Block.ownNodes, if_pos hb.own]

include h

theorem Told.exists_seated (hb : b.Told t) : ∃ p before mid after, b.Seated t p before mid after := by
  have hne : b.startNode ≠ b.endNode := by
    have hbound := bounded_of_resolve? hb.resolves
    have hown := hb.own
    unfold hasOwnBoundaries at hown
    generalize b.kind = k, b.startNode = s, b.endNode = e at hbound hown
    cases hbound with
    | row _ _ hne _ => exact hne
    | paragraph _ _ hne _ => exact hne
    | image => simp at hown
    | inline => simp at hown
  obtain ⟨-, hbetween, -, -⟩ := resolve?_eq_some.mp hb.resolves
  have hbetween := hbetween.resolve_right fun hc => hb.kind_ne_image hc.2.1
  obtain ⟨post, hlater⟩ := ((between?_eq_some h).mp hbetween).resolve_left fun hc => hne hc.1
  have hend := h.mem_laterElements (x := b.startNode) (y := b.endNode) (by rw [hlater]; simp)
  obtain ⟨p, hp⟩ := Option.ne_none_iff_exists'.mp hend.2.1
  obtain ⟨r, hr⟩ := hb.start
  obtain ⟨r', hr'⟩ := hb.stop
  exact ⟨p, Block.exists_seated h hr hr' hb.resolves hb.kind_ne_image hne hp⟩

theorem Told.isElement_startNode (hb : b.Told t) : t.isElement b.startNode = true := by
  obtain ⟨p, before, mid, after, hs⟩ := hb.exists_seated h
  obtain ⟨hw, hne⟩ := (hs.own hb.own).1 _ b.startField.first_mem_anchors
  refine h.isElement_of_within hw hne fun hroot => ?_
  have hp := hs.parent_startNode h
  rw [hroot, h.top] at hp
  cases hp

/-- The fields of the boundaries stand within them. -/
theorem Told.within_marker (hb : b.Told t) :
    t.Within b.startNode b.startField.marker ∧ t.Within b.endNode b.endField.marker := by
  obtain ⟨p, before, mid, after, hs⟩ := hb.exists_seated h
  obtain ⟨r, hr⟩ := hb.start
  obtain ⟨r', hr'⟩ := hb.stop
  exact ⟨within_trans ((hs.own hb.own).1 _ b.startField.first_mem_anchors).1 (placed_of_mem_fields hr).within_marker,
    within_trans ((hs.own hb.own).2 _ b.endField.first_mem_anchors).1 (placed_of_mem_fields hr').within_marker⟩

/-- Blocks that adjoin stand in one row. -/
theorem exists_strung {bs : List Block} (hne : bs ≠ []) (hbs : ∀ b ∈ bs, b.Told t) (hchain : bs.IsChain Adjoins) :
    ∃ p before first inner last after, Strung t bs p before first inner last after := by
  induction bs with
  | nil => exact absurd rfl hne
  | cons b bs ih =>
    have hb := hbs b List.mem_cons_self
    have hel := hb.isElement_startNode h
    obtain ⟨p, before, mid, after, hs⟩ := hb.exists_seated h
    cases bs with
    | nil =>
      refine ⟨p, before, b.startNode, mid, b.endNode, after, hs.row, rfl, rfl, ?_, fun b' hb' => ?_⟩
      · rw [List.filter_cons_of_pos hel, ← hs.body, List.flatMap_singleton]
      · rw [List.mem_singleton.mp hb']
        simp
    | cons c bs =>
      obtain ⟨hlink, hchain⟩ := List.isChain_cons_cons.mp hchain
      obtain ⟨q, before', first, inner, last, after', hrest⟩ :=
        ih (List.cons_ne_nil c bs) (fun b' hb' => hbs b' (List.mem_cons_of_mem b hb')) hchain
      obtain rfl : c.startNode = first := Option.some.inj hrest.starts
      -- the second block begins where the first one ends, and so the row is the same
      have hq : t.parent c.startNode = some q := h.parent_of_mem (by rw [hrest.row]; simp)
      have hp := hs.parent_endNode h
      rw [hlink, hq] at hp
      cases hp
      have hsplit := hs.row
      rw [hlink] at hsplit
      have hsplit' : t.children p = before' ++ c.startNode :: (inner ++ last :: after') := by rw [hrest.row]; simp
      obtain ⟨-, hrear⟩ := cut_unique (h.distinct p) hsplit hsplit'
      refine ⟨p, before, b.startNode, mid ++ c.startNode :: inner, last, after', ?_, rfl, ?_, ?_, fun b' hb' => ?_⟩
      · rw [hsplit, hrear]
        simp
      · rw [← hrest.ends, List.getLast?_cons_cons]
      · rw [← List.cons_append, List.filter_append, hrest.elements, List.filter_cons_of_pos hel, ← hs.body,
          List.flatMap_cons]
        rfl
      · rcases List.mem_cons.mp hb' with rfl | hb'
        · rw [hlink]
          simp
        · have := hrest.endNodes b' hb'
          simp only [List.append_assoc, List.cons_append, List.mem_append, List.mem_cons] at this ⊢
          exact Or.inr (Or.inr this)

end Block

/-! ## What leaves of the row -/

namespace Block

/-- What leaves while blocks give way is in a body, or a boundary that has no references but
    theirs, or an anchor. -/
theorem mem_leavingAll_cases {bs : List Block} {l : Ledger} {x : NodeId} (hx : x ∈ leavingAll bs l) :
    (∃ b ∈ bs, x ∈ b.body) ∨ (l.nodeCount x ≤ (bs.flatMap ownNodes).count x ∧ ∃ b ∈ bs, x ∈ b.ownNodes) ∨
      ∃ b ∈ bs, x ∈ b.startField.anchors ∨ x ∈ b.endField.anchors := by
  induction bs generalizing l with
  | nil => cases hx
  | cons b bs ih =>
    rw [List.flatMap_cons, List.count_append]
    rcases List.mem_append.mp hx with hx | hx
    · rcases Ledger.mem_leaving hx with ⟨-, hbody⟩ | ⟨hown, hcount, -⟩ | ⟨f, hf, ha, -⟩
      · exact Or.inl ⟨b, List.mem_cons_self, hbody⟩
      · rw [Ledger.nodeCount_after] at hcount
        exact Or.inr (Or.inl ⟨by omega, b, List.mem_cons_self, hown⟩)
      · refine Or.inr (Or.inr ⟨b, List.mem_cons_self, ?_⟩)
        rcases hf with rfl | rfl
        · exact Or.inl ha
        · exact Or.inr ha
    · rcases ih hx with ⟨b', hb', hbody⟩ | ⟨hcount, b', hb', hown⟩ | ⟨b', hb', ha⟩
      · exact Or.inl ⟨b', List.mem_cons_of_mem b hb', hbody⟩
      · rw [Ledger.nodeCount_after] at hcount
        exact Or.inr (Or.inl ⟨by omega, b', List.mem_cons_of_mem b hb', hown⟩)
      · exact Or.inr (Or.inr ⟨b', List.mem_cons_of_mem b hb', ha⟩)

/-- The blocks' boundaries are referred to by these blocks only. -/
def Unshared (bs : List Block) (l : Ledger) : Prop :=
  ∀ x ∈ bs.flatMap ownNodes, l.nodeCount x = (bs.flatMap ownNodes).count x ∧ x ∉ l.pinned

theorem Unshared.mem_leavingAll {bs : List Block} {l : Ledger} (hl : Unshared bs l) {x : NodeId} (hx : x ∈ bs.flatMap ownNodes) :
    x ∈ leavingAll bs l := by
  obtain ⟨hcount, hpin⟩ := hl x hx
  refine mem_leavingAll_of_free hpin ?_ ?_
  · rw [hcount]
    exact List.count_pos_iff.mpr hx
  · rw [nodeCount_afterAll, hcount, Nat.sub_self]

namespace Strung

variable {t : Tree} {bs : List Block} {p first last : NodeId} {before inner after : List NodeId}
  (hrow : Strung t bs p before first inner last after)

include hrow

theorem mem_of_boundary {b : Block} (hb : b ∈ bs) : b.startNode ∈ first :: inner ∧ (∀ x ∈ b.body, x ∈ first :: inner) ∧
    b.endNode ∈ inner ++ [last] := by
  have hmem : ∀ x ∈ b.startNode :: b.body, x ∈ first :: inner := fun x hx => by
    have hall : x ∈ (first :: inner).filter t.isElement := hrow.elements ▸ List.mem_flatMap.mpr ⟨b, hb, hx⟩
    exact (List.mem_filter.mp hall).1
  exact ⟨hmem _ List.mem_cons_self, fun x hx => hmem x (List.mem_cons_of_mem _ hx), hrow.endNodes b hb⟩

theorem mem_row {x : NodeId} (hx : x ∈ first :: (inner ++ [last])) : x ∈ t.children p := by
  rw [hrow.row]
  simp only [List.mem_cons, List.mem_append, List.not_mem_nil, or_false] at hx ⊢
  tauto

variable (h : t.WellFormed) (hbs : ∀ b ∈ bs, b.Told t)

include h hbs

/-- The anchors of the boundary fields stand within the row, but not in it. -/
theorem anchor_not_mem_row {b : Block} (hb : b ∈ bs) {x : NodeId} (hx : x ∈ b.startField.anchors ∨ x ∈ b.endField.anchors) :
    x ∉ t.children p := by
  obtain ⟨q, before', mid, after', hs⟩ := (hbs b hb).exists_seated h
  have hstart : b.endNode ∈ t.children p := hrow.mem_row (List.mem_cons_of_mem first (hrow.mem_of_boundary hb).2.2)
  obtain rfl : q = p := Option.some.inj ((hs.parent_endNode h).symm.trans (h.parent_of_mem hstart))
  exact hs.not_mem_row_of_own h (hbs b hb).own hx

/-- Nothing leaves on the far sides of the boundaries. -/
theorem mem_of_leaving {l : Ledger} {x : NodeId} (hx : x ∈ leavingAll bs l) (hxp : x ∈ t.children p) :
    x ∈ first :: (inner ++ [last]) := by
  have hwiden : ∀ y ∈ first :: inner, y ∈ first :: (inner ++ [last]) := fun y hy =>
    (List.cons_subset_cons first (List.subset_append_left inner [last])) hy
  rcases mem_leavingAll_cases hx with ⟨b, hb, hbody⟩ | ⟨-, b, hb, hown⟩ | ⟨b, hb, ha⟩
  · exact hwiden x ((hrow.mem_of_boundary hb).2.1 x hbody)
  · rw [(hbs b hb).ownNodes, List.mem_cons, List.mem_singleton] at hown
    rcases hown with rfl | rfl
    · exact hwiden _ (hrow.mem_of_boundary hb).1
    · exact List.mem_cons_of_mem first (hrow.mem_of_boundary hb).2.2
  · exact absurd hxp (hrow.anchor_not_mem_row h hbs hb ha)

omit h in
/-- Every element from the first boundary to the last leaves. -/
theorem mem_leavingAll {l : Ledger} (hl : Unshared bs l) {x : NodeId} (hx : x ∈ first :: (inner ++ [last]))
    (hel : t.isElement x = true) : x ∈ leavingAll bs l := by
  have hboundary : ∀ b ∈ bs, ∀ x ∈ [b.startNode, b.endNode], x ∈ leavingAll bs l := fun b hb x hx =>
    hl.mem_leavingAll (List.mem_flatMap.mpr ⟨b, hb, (hbs b hb).ownNodes ▸ hx⟩)
  rw [← List.cons_append, List.mem_append] at hx
  rcases hx with hx | hx
  · have hin : x ∈ bs.flatMap fun b => b.startNode :: b.body := hrow.elements ▸ List.mem_filter.mpr ⟨hx, hel⟩
    obtain ⟨b, hb, hx⟩ := List.mem_flatMap.mp hin
    rcases List.mem_cons.mp hx with rfl | hx
    · exact hboundary b hb _ (by simp)
    · exact mem_leavingAll_of_body (hbs b hb).kind_ne_image hx hb l
  · obtain ⟨b, hb, hlast⟩ := Option.map_eq_some_iff.mp hrow.ends
    rw [List.mem_singleton.mp hx, ← hlast]
    exact hboundary b (List.mem_of_getLast? hb) _ (by simp)

/-- Above each of a block's markers, and of its boundaries and the nodes of its body, there is a
    node of the row that leaves. -/
theorem exists_leaving_above {l : Ledger} (hl : Unshared bs l) {b : Block} (hb : b ∈ bs) {x : NodeId}
    (hx : x ∈ [b.startNode, b.endNode, b.startField.marker, b.endField.marker] ++ b.body) :
    ∃ z ∈ leavingAll bs l, z ∈ t.children p ∧ t.Within z x := by
  obtain ⟨hrowstart, hrowbody, hrowend⟩ := hrow.mem_of_boundary hb
  obtain ⟨hwstart, hwstop⟩ := (hbs b hb).within_marker h
  have hin : ∀ z ∈ first :: inner, z ∈ t.children p := fun z hz =>
    hrow.mem_row (by rw [← List.cons_append]; exact List.mem_append_left _ hz)
  have hlast : b.endNode ∈ t.children p := hrow.mem_row (List.mem_cons_of_mem first hrowend)
  have hboundary : ∀ z ∈ [b.startNode, b.endNode], z ∈ leavingAll bs l :=
    fun z hz => hl.mem_leavingAll (List.mem_flatMap.mpr ⟨b, hb, (hbs b hb).ownNodes ▸ hz⟩)
  have hstart := hboundary b.startNode (by simp)
  have hstop := hboundary b.endNode (by simp)
  rcases List.mem_append.mp hx with hx | hx
  · simp only [List.mem_cons, List.not_mem_nil, or_false] at hx
    rcases hx with rfl | rfl | rfl | rfl
    · exact ⟨_, hstart, hin _ hrowstart, within_refl t _⟩
    · exact ⟨_, hstop, hlast, within_refl t _⟩
    · exact ⟨_, hstart, hin _ hrowstart, hwstart⟩
    · exact ⟨_, hstop, hlast, hwstop⟩
  · exact ⟨x, mem_leavingAll_of_body (hbs b hb).kind_ne_image hx hb l, hin x (hrowbody x hx), within_refl t x⟩

/-- The start of a block is still there when the blocks before it have given way. -/
theorem startNode_not_mem {front rear : List Block} {b : Block} (hsplit : bs = front ++ b :: rear) {l : Ledger}
    (hl : Unshared bs l) : b.startNode ∉ leavingAll front l := by
  have hb : b ∈ bs := by rw [hsplit]; simp
  have hnd : (bs.flatMap fun b => b.startNode :: b.body).Nodup := by
    rw [← hrow.elements]
    have hall := h.distinct p
    rw [hrow.row] at hall
    exact ((List.nodup_append.mp (List.nodup_append.mp hall).1).2.1).filter _
  intro hx
  rcases mem_leavingAll_cases hx with ⟨c, hc, hbody⟩ | ⟨hcount, -⟩ | ⟨c, hc, ha⟩
  · rw [hsplit, List.flatMap_append] at hnd
    refine (List.nodup_append.mp hnd).2.2 _ (List.mem_flatMap.mpr ⟨c, hc, List.mem_cons_of_mem _ hbody⟩) _ ?_ rfl
    simp
  · have hown : b.startNode ∈ b.ownNodes := by rw [(hbs b hb).ownNodes]; simp
    rw [(hl b.startNode (List.mem_flatMap.mpr ⟨b, hb, hown⟩)).1, hsplit, List.flatMap_append, List.flatMap_cons, List.count_append,
      List.count_append] at hcount
    have hpos := List.count_pos_iff.mpr hown
    omega
  · have hc : c ∈ bs := by rw [hsplit]; exact List.mem_append_left _ hc
    refine hrow.anchor_not_mem_row h hbs hc ha (hrow.mem_row ?_)
    rw [← List.cons_append]
    exact List.mem_append_left _ (hrow.mem_of_boundary hb).1

omit h hbs in
/-- The content goes into the row somewhere between the boundaries, behind the start of its block. -/
theorem exists_cut {content : List NodeId} {s s' : Session} {taken : Option Block} (hs' : takeOne bs content s taken s') :
    ∃ front rear, first :: (inner ++ [last]) = front ++ rear ∧ ∀ b, taken = some b → ∃ upTo, front = upTo ++ [b.startNode] := by
  cases taken with
  | none =>
    refine ⟨_, [], (List.append_nil _).symm, fun b hb => ?_⟩
    cases hb
  | some b =>
    obtain ⟨bsBefore, bsAfter, hsplit, -⟩ := hs'
    have hb : b ∈ bs := by rw [hsplit]; simp
    obtain ⟨upTo, rest, hcut⟩ := List.append_of_mem (hrow.mem_of_boundary hb).1
    refine ⟨upTo ++ [b.startNode], rest ++ [last], ?_, fun b' hb' => ?_⟩
    · rw [← List.cons_append, hcut]
      simp
    · cases hb'
      exact ⟨upTo, rfl⟩

/-- What is left of the row, cut somewhere between the boundaries. -/
theorem filter_row {l : Ledger} (hl : Unshared bs l) {front rear : List NodeId} (hcut : first :: (inner ++ [last]) = front ++ rear) :
    ((before ++ front).filter (· ∉ leavingAll bs l)).filter t.isElement = before.filter t.isElement ∧
      ((rear ++ after).filter (· ∉ leavingAll bs l)).filter t.isElement = after.filter t.isElement := by
  have hall : t.children p = before ++ (front ++ rear) ++ after := by rw [hrow.row, ← hcut]; simp
  have hnd := h.distinct p
  rw [hall] at hnd
  have hmiddle : ∀ xs : List NodeId, xs ⊆ front ++ rear → (xs.filter (· ∉ leavingAll bs l)).filter t.isElement = [] := fun xs hxs => by
    refine List.filter_eq_nil_iff.mpr fun x hx hel => ?_
    obtain ⟨hx, hout⟩ := List.mem_filter.mp hx
    exact of_decide_eq_true hout (hrow.mem_leavingAll hbs hl (hcut ▸ hxs hx) hel)
  have hside : ∀ xs : List NodeId, (∀ x ∈ xs, x ∈ t.children p ∧ x ∉ front ++ rear) → xs.filter (· ∉ leavingAll bs l) = xs := fun xs hxs =>
    List.filter_eq_self.mpr fun x hx => decide_eq_true fun hm => (hxs x hx).2 (hcut ▸ hrow.mem_of_leaving h hbs hm (hxs x hx).1)
  obtain ⟨hleft, -, hright⟩ := List.nodup_append.mp hnd
  have hbefore := hside before fun x hx => ⟨by rw [hall]; simp [hx], fun hm => (List.nodup_append.mp hleft).2.2 x hx x hm rfl⟩
  have hafter := hside after fun x hx => ⟨by rw [hall]; simp [hx], fun hm => hright x (List.mem_append_right _ hm) x hx rfl⟩
  rw [List.filter_append, List.filter_append, List.filter_append, List.filter_append, hbefore, hafter,
    hmiddle front (List.subset_append_left _ _), hmiddle rear (List.subset_append_right _ _), List.append_nil, List.nil_append]
  exact ⟨rfl, rfl⟩

end Strung

/-! ## The row behind the blocks -/

/-- The blocks give way one after the other: all that leaves has left the row, and the content
    is behind the start of its block. -/
theorem children_takeOne {bs : List Block} {made s' : Session} (ht : made.tree.Parented) {content : List NodeId} (hnd : content.Nodup)
    (hspare : ∀ x ∈ content, x < made.tree.size ∧ made.tree.parent x = none) (hout : ∀ x ∈ content, x ∉ leavingAll bs made.ledger)
    {taken : Option Block} (hs' : takeOne bs content made taken s') {p : NodeId} {front rear : List NodeId}
    (hrow : made.tree.children p = front ++ rear) (hdistinct : (made.tree.children p).Nodup)
    (hplace : ∀ b, taken = some b → ∃ upTo, front = upTo ++ [b.startNode])
    (hstart : ∀ b bsBefore bsAfter, bs = bsBefore ++ b :: bsAfter → b.startNode ∉ leavingAll bsBefore made.ledger) :
    s'.tree.children p = front.filter (· ∉ leavingAll bs made.ledger) ++ content ++ rear.filter (· ∉ leavingAll bs made.ledger) := by
  cases taken with
  | none =>
    obtain ⟨rfl, rfl⟩ := hs'
    rw [tree_dropAll, ht.children_detachAll, hrow, List.filter_append, List.append_nil]
  | some b =>
    obtain ⟨bsBefore, bsAfter, rfl, rfl⟩ := hs'
    obtain ⟨upTo, rfl⟩ := hplace b rfl
    have hstay := hstart b bsBefore bsAfter rfl
    rw [hrow] at hdistinct
    rw [leavingAll_append, ← ledger_dropAll] at hout ⊢
    generalize hgone : leavingAll bsBefore made.ledger = gone at hstay hout ⊢
    have hfirst : ∀ q, (dropAll bsBefore made).tree.children q = (made.tree.children q).filter (· ∉ gone) := by
      rw [tree_dropAll, hgone]
      exact ht.children_detachAll gone
    have hparented : (dropAll bsBefore made).tree.Parented := by
      intro q c hc
      rw [hfirst, List.mem_filter] at hc
      rw [parent_dropAll, hgone, if_neg (of_decide_eq_true hc.2)]
      exact ht q c hc.1
    have hcut : (dropAll bsBefore made).tree.children p =
        upTo.filter (· ∉ gone) ++ b.startNode :: rear.filter (· ∉ gone) := by
      rw [hfirst, hrow]
      simp [List.filter_append, hstay]
    have hbefore : b.startNode ∉ upTo.filter (· ∉ gone) := fun hm =>
      (List.nodup_append.mp (List.nodup_append.mp hdistinct).1).2.2 _ (List.mem_filter.mp hm).1 _ (List.mem_singleton_self _) rfl
    have hspare' : ∀ x ∈ content, x < (dropAll bsBefore made).tree.size ∧ (dropAll bsBefore made).tree.parent x = none := by
      intro x hx
      refine ⟨Nat.lt_of_lt_of_le (hspare x hx).1 (grows_dropAll bsBefore made), ?_⟩
      rw [parent_dropAll, (hspare x hx).2, ite_self]
    obtain ⟨hput, hall⟩ := hparented.insertAllAfter hcut hbefore hnd hspare'
    have hrest : (dropAll bsAfter (b.giveWay content (dropAll bsBefore made)).2).tree =
        ((dropAll bsBefore made).tree.insertAllAfter b.startNode content).detachAll
          (leavingAll (b :: bsAfter) (dropAll bsBefore made).ledger) := by
      rw [tree_dropAll, ledger_giveWay, leavingAll, detachAll_append, run_giveWay, replace_eq]
    rw [hrest, hput.children_detachAll, hall, if_pos rfl]
    have hcontent : content.filter (· ∉ leavingAll (b :: bsAfter) (dropAll bsBefore made).ledger) = content :=
      List.filter_eq_self.mpr fun x hx => decide_eq_true fun hm => hout x hx (List.mem_append_right _ hm)
    have htwice : ∀ xs : List NodeId, (xs.filter (· ∉ gone)).filter (· ∉ leavingAll (b :: bsAfter) (dropAll bsBefore made).ledger) =
        xs.filter (· ∉ gone ++ leavingAll (b :: bsAfter) (dropAll bsBefore made).ledger) := by
      intro xs
      rw [List.filter_filter]
      refine List.filter_congr fun x _ => ?_
      simp only [List.mem_append, not_or, Bool.decide_and, Bool.and_comm]
    have hjoin : upTo.filter (· ∉ gone) ++ b.startNode :: content ++ rear.filter (· ∉ gone) =
        (upTo ++ [b.startNode]).filter (· ∉ gone) ++ content ++ rear.filter (· ∉ gone) := by simp [List.filter_append, hstay]
    rw [hjoin, List.filter_append, List.filter_append, hcontent, htwice, htwice]

/-- The elements on the far sides of the boundaries stay, and the content is between them. -/
theorem Strung.elementChildren_takeOne {t : Tree} {bs : List Block} {p first last : NodeId} {before inner after : List NodeId}
    (hrow : Strung t bs p before first inner last after) (h : t.WellFormed) (hbs : ∀ b ∈ bs, b.Told t) {made s' : Session}
    (hl : Unshared bs made.ledger) (hmade : Beyond t.size t made.tree) {content : List NodeId} (hnd : content.Nodup)
    (hfresh : Fresh t.size made.tree content) {taken : Option Block} (hs' : takeOne bs content made taken s')
    (hkind : ∀ x, s'.tree.kind x = made.tree.kind x) (hout : ∀ x ∈ leavingAll bs made.ledger, x < t.size) :
    s'.tree.elementChildren p = before.filter t.isElement ++ content.filter s'.tree.isElement ++ after.filter t.isElement := by
  have hp : p < t.size := lt_size_of_mem_children (hrow.mem_row List.mem_cons_self)
  have hchildren : made.tree.children p = t.children p := hmade.children_eq hp
  obtain ⟨front, rear, hcut, hplace⟩ := hrow.exists_cut hs'
  have hall : t.children p = (before ++ front) ++ (rear ++ after) := by
    rw [List.append_assoc, ← List.append_assoc front, ← hcut, hrow.row]
    simp
  have hplace' : ∀ b, taken = some b → ∃ upTo, before ++ front = upTo ++ [b.startNode] := by
    intro b hb
    obtain ⟨upTo, rfl⟩ := hplace b hb
    exact ⟨before ++ upTo, (List.append_assoc _ _ _).symm⟩
  have hafter := children_takeOne (fun _ _ hc => hmade.wellFormed.parent_of_mem hc) hnd (fun x hx => (hfresh x hx).2)
    (fun x hx hm => Nat.not_lt_of_le (hfresh x hx).1 (hout x hm)) hs' (hchildren.trans hall) (hmade.wellFormed.distinct p) hplace'
    fun b bsBefore bsAfter hsplit => hrow.startNode_not_mem h hbs hsplit hl
  obtain ⟨hfront, hrear⟩ := hrow.filter_row h hbs hl hcut
  have hold : ∀ xs : List NodeId, (∀ x ∈ xs, x ∈ t.children p) → xs.filter s'.tree.isElement = xs.filter t.isElement := by
    intro xs hxs
    refine List.filter_congr fun x hx => ?_
    rw [isElement_congr (hkind x), isElement_congr (hmade.kind_eq (h.lt_size_of_mem (hxs x hx)))]
  have hside : ∀ xs : List NodeId, xs ⊆ t.children p → ∀ x ∈ xs.filter (· ∉ leavingAll bs made.ledger), x ∈ t.children p :=
    fun xs hxs x hx => hxs (List.mem_filter.mp hx).1
  rw [elementChildren, hafter, List.filter_append, List.filter_append,
    hold _ (hside _ (hall ▸ List.subset_append_left _ _)), hold _ (hside _ (hall ▸ List.subset_append_right _ _)), hfront, hrear]

end Block

/-! ## The blocks of a conditional -/

namespace Outline

theorem Closes.blocks_ne_nil {t : Tree} {f e : Field} {d : Directive} {marks : List Field} {s : Statement}
    (h : Closes t f d marks e s) : s.blocks ≠ [] := by
  cases h <;> exact List.cons_ne_nil _ _

/-- Of blocks that reach from each field to the next, each ends where the next one begins. -/
theorem isChain_of_ends {R : Block → Block → Prop} {bs : List Block} {f : Field} {fs : List Field}
    (h : bs.map Block.ends = (f :: fs).zip fs) (hR : ∀ b ∈ bs, ∀ c ∈ bs, b.endField = c.startField → R b c) : bs.IsChain R := by
  induction fs generalizing f bs with
  | nil =>
    obtain rfl := List.map_eq_nil_iff.mp h
    exact .nil
  | cons f' fs ih =>
    rw [List.zip_cons_cons] at h
    obtain ⟨b, bs, rfl, hb, hbs⟩ := List.map_eq_cons_iff.mp h
    have hchain := ih hbs fun b' hb' c' hc' => hR b' (List.mem_cons_of_mem b hb') c' (List.mem_cons_of_mem b hc')
    cases bs with
    | nil => exact .singleton b
    | cons c bs =>
      refine List.isChain_cons_cons.mpr ⟨hR b List.mem_cons_self c (by simp) ?_, hchain⟩
      cases fs with
      | nil => cases hbs
      | cons f'' fs =>
        have hb := congrArg Prod.snd hb
        have hc := congrArg Prod.fst (List.cons.inj hbs).1
        exact hb.trans hc.symm

end Outline

namespace Block

/-- Blocks of one kind that share a field share the row or paragraph around it. -/
theorem adjoins_of_field {t : Tree} {b c : Block} (hb : b.Told t) (hc : c.Told t) (hkind : b.kind = c.kind)
    (hfield : b.endField = c.startField) : b.Adjoins c := by
  have hbound := bounded_of_resolve? hb.resolves
  have hbound' := bounded_of_resolve? hc.resolves
  have hown := hb.own
  unfold hasOwnBoundaries at hown
  unfold Adjoins
  rw [← hkind, ← hfield] at hbound'
  generalize b.kind = k, b.startNode = s, b.endNode = e, c.startNode = s', c.endNode = e' at hbound hbound' hown ⊢
  cases hbound with
  | row _ he _ _ =>
    cases hbound' with
    | row hs' _ _ _ => exact Option.some.inj (he.symm.trans hs')
  | paragraph _ he _ _ =>
    cases hbound' with
    | paragraph hs' _ _ _ => exact Option.some.inj (he.symm.trans hs')
  | image => simp at hown
  | inline => simp at hown

end Block

namespace Statement

variable {r : Registry} {n : Nat} {t : Tree} {id : NodeId} {ss : List Statement} {l : Ledger} {branches : List Condition}
  {otherwise : Option Block}

/-- The blocks of a conditional that is built are told by the scan, and adjoin. -/
theorem told_of_choice (hbuild : ofFields r t (t.fields id) = .ok (ss, l)) (hmem : choice branches otherwise ∈ ss)
    (hkind : (∀ b ∈ (choice branches otherwise).blocks, b.kind = .paragraph) ∨ ∀ b ∈ (choice branches otherwise).blocks, b.kind = .row) :
    (choice branches otherwise).blocks ≠ [] ∧ (∀ b ∈ (choice branches otherwise).blocks, b.Told t) ∧
      (choice branches otherwise).blocks.IsChain Block.Adjoins := by
  have hout := outlined_of_takeAll hbuild
  have htold : ∀ b ∈ (choice branches otherwise).blocks, b.Told t := by
    intro b hb
    obtain ⟨hstart, hstop⟩ := hout.mem_fields_block (List.mem_flatMap.mpr ⟨_, hmem, hb⟩)
    refine ⟨?_, hout.resolves hmem hb, ⟨_, hstart⟩, _, hstop⟩
    unfold Block.hasOwnBoundaries
    rcases hkind with hkind | hkind <;> rw [hkind b hb] <;> rfl
  rcases hout.group hmem with ⟨f, o, he⟩ | hgroup
  · cases he
  · cases hgroup with
    | intro _ _ _ _ _ _ hclose =>
      refine ⟨hclose.blocks_ne_nil, htold, isChain_of_ends hclose.ends fun b hb c hc hfield => ?_⟩
      refine Block.adjoins_of_field (htold b hb) (htold c hc) ?_ hfield
      rcases hkind with hkind | hkind <;> rw [hkind b hb, hkind c hc]

/-- What is made for the block decided for is new and stands nowhere. -/
theorem expandTaken_spec {s made : Session} (h : s.tree.WellFormed) {taken : Option Block}
    (hb : ∀ b, taken = some b → Block.resolve? s.tree b.startField b.endField = some b) {content : List NodeId}
    (hrun : expandTaken (below r n) taken s = (.ok content, made)) :
    Beyond s.tree.size s.tree made.tree ∧ made.ledger = s.ledger ∧ content.Nodup ∧ Fresh s.tree.size made.tree content := by
  cases taken with
  | none =>
    cases hrun
    exact ⟨.refl (fenced_size h), rfl, List.nodup_nil, fun c hc => absurd hc List.not_mem_nil⟩
  | some b =>
    have hbody : b.expandBody (below r n) s = (.ok content, made) := hrun
    obtain ⟨hed, hfresh⟩ := expandBody_spec (expands_below r n) h (Block.inStore_of_resolve? h (hb b rfl))
    obtain ⟨hnd, -⟩ := (expandBody_on_copies h (hb b rfl)).2 content made hbody
    rw [hbody] at hed hfresh
    exact ⟨hed.tree, hed.ledger, hnd, hfresh content rfl⟩

theorem kind_takeOne {bs : List Block} {content : List NodeId} {made s' : Session} {taken : Option Block}
    (hs' : Block.takeOne bs content made taken s') (x : NodeId) : s'.tree.kind x = made.tree.kind x := by
  cases taken with
  | none =>
    obtain ⟨-, rfl⟩ := hs'
    exact Block.kind_dropAll bs made x
  | some b =>
    obtain ⟨before, after, -, rfl⟩ := hs'
    rw [Block.kind_dropAll, Block.kind_giveWay, Block.kind_dropAll]

/-- A conditional whose blocks have paragraphs, or rows, for boundaries that no other directive
    refers to asks its guards in order up to the first that holds, expands the block they
    decide for and no other, and puts what that makes between the elements in front of the
    first boundary and those behind the last one. -/
theorem choice_takes_one {s : Session} (h : s.tree.WellFormed) (hbuild : ofFields r s.tree (s.tree.fields id) = .ok (ss, l))
    (hmem : choice branches otherwise ∈ ss)
    (hkind : (∀ b ∈ (choice branches otherwise).blocks, b.kind = .paragraph) ∨ ∀ b ∈ (choice branches otherwise).blocks, b.kind = .row)
    (hl : Block.Unshared (choice branches otherwise).blocks s.ledger) :
    ∃ p before first inner last after, Block.Strung s.tree (choice branches otherwise).blocks p before first inner last after ∧
      ∃ out, Condition.Decides s.env otherwise branches out ∧
        (∀ e, out = .error e → (choice branches otherwise).evaluate (below r n) s = (.error e, s)) ∧
        ∀ taken, out = .ok taken →
          (∀ e made, expandTaken (below r n) taken s = (.error e, made) →
            (choice branches otherwise).evaluate (below r n) s = (.error e, made)) ∧
          ∀ content made, expandTaken (below r n) taken s = (.ok content, made) →
            ∃ s', (choice branches otherwise).evaluate (below r n) s = (.ok (), s') ∧
              s'.tree.elementChildren p =
                before.filter s.tree.isElement ++ content.filter s'.tree.isElement ++ after.filter s.tree.isElement ∧
              ∀ b ∈ (choice branches otherwise).blocks,
                ∀ x ∈ [b.startNode, b.endNode, b.startField.marker, b.endField.marker] ++ b.body,
                ∀ y, s.tree.Within x y → s'.tree.isAttached y = false := by
  obtain ⟨hne, htold, hchain⟩ := told_of_choice hbuild hmem hkind
  have hown : (choice branches otherwise).Owned (fun x => 0 ≤ x) s.tree :=
    Tree.Zone.owned_statements (fenced_zero h) (fun _ hx => hx) (Nat.zero_le id) (outlined_of_takeAll hbuild) _ hmem
  obtain ⟨p, before, first, inner, last, after, hrow⟩ := Block.exists_strung h hne htold hchain
  obtain ⟨out, hout, hfails, hgoes⟩ := run_choice_of_guards (below r n) branches otherwise s
  refine ⟨p, before, first, inner, last, after, hrow, out, hout, hfails, fun taken htaken => ?_⟩
  obtain ⟨herror, hgoes⟩ := hgoes taken htaken
  refine ⟨herror, fun content made hmade => ?_⟩
  obtain ⟨s', hrun, htake⟩ := hgoes content made hmade
  have hb : ∀ b, taken = some b → Block.resolve? s.tree b.startField b.endField = some b := by
    rintro b rfl
    obtain ⟨_, _, hsplit, -⟩ := htake
    exact (htold b (by rw [hsplit]; simp)).resolves
  obtain ⟨hbeyond, hledger, hnd, hfresh⟩ := expandTaken_spec h hb hmade
  have hlt : ∀ x ∈ Block.leavingAll (choice branches otherwise).blocks s.ledger, x < s.tree.size := by
    intro x hx
    obtain ⟨b, hb, l', hx⟩ := Block.exists_leaving hx
    exact (hown.blocks b hb).lt_size_of_leaving hx
  refine ⟨s', hrun, ?_, fun b hb x hx y hxy => ?_⟩
  · rw [← hledger] at hl hlt
    exact hrow.elementChildren_takeOne h htold hl hbeyond hnd hfresh htake (kind_takeOne htake) hlt
  · have hdoc : s'.tree.WellFormed := by
      have hed := edits_evaluate (expands_below r n) (fenced_zero h) hown fun _ _ hx => hx
      rw [hrun] at hed
      exact hed.tree.wellFormed
    have hinsert : ∀ f o, choice branches otherwise ≠ .insertion f o := fun f o he => by cases he
    obtain ⟨z, hz, hzp, hzx⟩ := hrow.exists_leaving_above h htold hl hb hx
    have hzy := within_trans hzx hxy
    have hroot : z ≠ root := by
      rintro rfl
      have hparent := h.parent_of_mem hzp
      rw [h.top] at hparent
      cases hparent
    have hy : y < s.tree.size := (fenced_size h).lt_of_within (hlt z hz) hzy
    rw [← Bool.not_eq_true, hdoc.isAttached_iff,
      within_root_of_left h (fun y hy => parent_evaluate (expands_below r n) h hinsert hown hrun hy) hy]
    exact fun hall => hall.2 z hz hroot hzy

namespace TwoBranches

/-- Three boundary paragraphs with a paragraph behind each of the first two, and a paragraph
    on either side. -/
def tree : Tree := ⟨#[⟨.container, none, [1], .none⟩,
  ⟨.element "w:body" [], some 0, [2, 3, 5, 6, 8, 9, 11], .none⟩,
  paragraph [], paragraph [4], field 3 "a:if", paragraph [],
  paragraph [7], field 6 "a:else", paragraph [],
  paragraph [10], field 9 "a:endIf", paragraph []]⟩
where
  paragraph (children : List NodeId) : Node := ⟨.element Word.paragraph [], some 1, children, .none⟩
  field (parent : NodeId) (directive : String) : Node :=
    ⟨.element Word.simpleField [(Word.fieldInstruction, "MERGEFIELD " ++ directive)], some parent, [], .none⟩

def fieldAt (marker : NodeId) (directive : String) : Field := ⟨marker, directive, marker, [], .simple, true, .none⟩

def branch : Condition := ⟨⟨"a", []⟩, none, ⟨.paragraph, fieldAt 4 "a:if", fieldAt 7 "a:else", 3, 6, [5]⟩⟩

def last : Block := ⟨.paragraph, fieldAt 7 "a:else", fieldAt 10 "a:endIf", 6, 9, [8]⟩

def ledger : Ledger := ⟨[10, 7, 7, 4], [9, 6, 6, 3], []⟩

/-- The guard fails. -/
def start : Session := ⟨tree, ⟨[("a", .boolean false)], [], .lenient, .empty⟩, ledger⟩

theorem built : ofFields Registry.stock tree (tree.fields root) = .ok ([.choice [branch] (some last)], ledger) := by cbv

theorem unshared : Block.Unshared (Statement.choice [branch] (some last)).blocks ledger := by
  unfold Block.Unshared
  decide

theorem expanded : (last.expandBody (below Registry.stock 1) start).1 = .ok [13] := by decide +kernel

end TwoBranches

open TwoBranches in
/-- The body of the last branch stands between the paragraphs on either side, and the markers
    are gone. -/
theorem last_branch_taken : tree.WellFormed ∧ Block.Unshared (choice [branch] (some last)).blocks ledger ∧
    ∃ s', (choice [branch] (some last)).evaluate (below Registry.stock 1) start = (.ok (), s') ∧
      s'.tree.elementChildren 1 = [2, 13, 11] ∧ ∀ x ∈ [3, 4, 5, 6, 7, 8, 9, 10], s'.tree.isAttached x = false := by
  have h : tree.WellFormed := wellFormed_of_earlier (by decide) (by decide) (by decide)
  refine ⟨h, unshared, ?_⟩
  obtain ⟨p, before, first, inner, stop, after, hrow, out, hout, -, hgoes⟩ :=
    choice_takes_one (r := Registry.stock) (n := 1) (s := start) h built (List.mem_singleton_self _)
      (Or.inl (by decide)) unshared
  have hguard : branch.holds start.env = .ok false := by decide +kernel
  have htaken : out = .ok (some last) := by
    cases hout with
    | fails hc => cases hguard.symm.trans hc
    | holds hc => cases hguard.symm.trans hc
    | later _ hout =>
      cases hout
      rfl
  obtain ⟨s', hrun, hchildren, hgone⟩ := (hgoes _ htaken).2 [13] _ (Prod.ext expanded rfl)
  refine ⟨s', hrun, ?_, fun x hx => ?_⟩
  · -- the first boundary is in the row, and so is the last
    obtain rfl : 3 = first := Option.some.inj hrow.starts
    obtain rfl : 9 = stop := Option.some.inj hrow.ends
    obtain rfl : 1 = p := Option.some.inj (h.parent_of_mem (hrow.mem_row List.mem_cons_self))
    have hcut : [2, 3, 5, 6, 8, 9, 11] = before ++ 3 :: (inner ++ 9 :: after) := by
      have hall : tree.children 1 = _ := hrow.row
      rw [List.append_assoc] at hall
      exact hall
    obtain ⟨rfl, hrest⟩ := cut_unique (a := [2]) (x := 3) (by decide) rfl hcut
    obtain ⟨-, rfl⟩ := cut_unique (a := [5, 6, 8]) (x := 9) (by decide) rfl hrest
    have hnew : s'.tree.isElement 13 = true := by
      obtain rfl := congrArg Prod.snd hrun
      decide +kernel
    have hsides : [2].filter start.tree.isElement = [2] ∧ [11].filter start.tree.isElement = [11] := by decide
    rw [hchildren, List.filter_cons_of_pos hnew, hsides.1, hsides.2]
    rfl
  · have hin : ∃ b ∈ (choice [branch] (some last)).blocks, ∃ z ∈ [b.startNode, b.endNode, b.startField.marker, b.endField.marker] ++ b.body,
        x = z := by
      revert x
      decide
    obtain ⟨b, hb, z, hz, rfl⟩ := hin
    exact hgone b hb x hz x (within_refl _ x)

end Statement

end MailMerge
