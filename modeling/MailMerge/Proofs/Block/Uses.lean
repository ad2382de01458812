/-
  MailMerge.Proofs.Block.Uses — the ledger counts the blocks still to be replaced.

  Of a scan's top-level blocks, those that have rows or paragraphs of their own as
  boundaries count these; the others pin their paragraphs. Each block also counts its
  boundary fields, and so do nested blocks, so a field may have more references than there
  are top-level blocks that it bounds.

  Proved: the ledger of a scan covers the blocks of its statements (`covers_of_ofFields`), and
  no nested block refers to their boundary fields (`count_of_ofFields`);
  giving up a block uncovers it and no other (`Covers.release`); what a block takes out of
  the tree when it gives way is told by the ledger (`replace_eq`, `mem_leaving`).
-/

import MailMerge.Proofs.Outline.Groups
import MailMerge.Block.Replace

namespace MailMerge

open MailMerge.Tree

namespace Block

/-- The boundary nodes that a block counts. -/
def ownNodes (b : Block) : List NodeId := if b.hasOwnBoundaries then [b.startNode, b.endNode] else []

/-- The markers of the boundary fields. -/
def marks (b : Block) : List NodeId := [b.startField.marker, b.endField.marker]

end Block

/-- The ledger holds what the blocks need. -/
structure Ledger.Covers (t : Tree) (l : Ledger) (bs : List Block) : Prop where
  nodes : ∀ x, l.nodeCount x = (bs.flatMap Block.ownNodes).count x
  fields : ∀ m, (bs.flatMap Block.marks).count m ≤ l.fields.count m
  pinned : ∀ b ∈ bs, b.hasOwnBoundaries = false → ∀ q, b.startField.ancestor? t Word.paragraph = some q → q ∈ l.pinned

namespace Ledger

theorem mem_pinned_pinParagraph {t : Tree} {l : Ledger} {f : Field} {q : NodeId} (hq : q ∈ l.pinned) :
    q ∈ (pinParagraph t l f).pinned := by
  unfold pinParagraph
  split
  · exact List.mem_cons_of_mem _ hq
  · exact hq

theorem nodes_pinParagraph (t : Tree) (l : Ledger) (f : Field) : (pinParagraph t l f).nodes = l.nodes := by
  unfold pinParagraph; split <;> rfl

theorem fields_pinParagraph (t : Tree) (l : Ledger) (f : Field) : (pinParagraph t l f).fields = l.fields := by
  unfold pinParagraph; split <;> rfl

theorem fields_hold (l : Ledger) (t : Tree) (b : Block) : (l.hold t b).fields = l.fields := by
  unfold hold
  split
  · rfl
  · rw [fields_pinParagraph, fields_pinParagraph]

theorem mem_pinned_hold {l : Ledger} {t : Tree} {b : Block} {q : NodeId} (hq : q ∈ l.pinned) : q ∈ (l.hold t b).pinned := by
  unfold hold
  split
  · exact hq
  · exact mem_pinned_pinParagraph (mem_pinned_pinParagraph hq)

theorem nodeCount_hold (l : Ledger) (t : Tree) (b : Block) (x : NodeId) :
    (l.hold t b).nodeCount x = l.nodeCount x + b.ownNodes.count x := by
  unfold hold Block.ownNodes
  split
  · rw [nodeCount_addNode, nodeCount_addNode, List.count_cons, List.count_cons, List.count_nil]
    simp only [beq_iff_eq]
    omega
  · show (pinParagraph t (pinParagraph t l b.startField) b.endField).nodes.count x = _
    rw [nodes_pinParagraph, nodes_pinParagraph]
    rfl

theorem count_fields_enter (t : Tree) (nested : Bool) (l : Ledger) (b : Block) (m : NodeId) :
    (l.enter t nested b).fields.count m = l.fields.count m + b.marks.count m := by
  have hrefer : (l.refer b).fields.count m = l.fields.count m + b.marks.count m := by
    show (b.endField.marker :: b.startField.marker :: l.fields).count m = _
    simp only [Block.marks, List.count_cons, List.count_nil]
    omega
  unfold enter
  split
  · exact hrefer
  · rw [fields_hold]; exact hrefer

/-- A ledger between the one before a scan and the one that covers the scan's blocks. -/
structure Adds (t : Tree) (l : Ledger) (bs : List Block) (l' : Ledger) : Prop where
  nodes : ∀ x, l'.nodeCount x = l.nodeCount x + (bs.flatMap Block.ownNodes).count x
  fields : ∀ m, l.fields.count m + (bs.flatMap Block.marks).count m ≤ l'.fields.count m
  kept : ∀ q ∈ l.pinned, q ∈ l'.pinned
  pinned : ∀ b ∈ bs, b.hasOwnBoundaries = false → ∀ q, b.startField.ancestor? t Word.paragraph = some q → q ∈ l'.pinned
  unpinned : (∀ b ∈ bs, b.hasOwnBoundaries = true) → l'.pinned = l.pinned

theorem Adds.refl (t : Tree) (l : Ledger) : Adds t l [] l :=
  ⟨fun _ => rfl, fun _ => Nat.le_refl _, fun _ hq => hq, (fun _ hb => nomatch hb), fun _ => rfl⟩

theorem Adds.trans {t : Tree} {l l' l'' : Ledger} {bs bs' : List Block} (h : Adds t l bs l') (h' : Adds t l' bs' l'') :
    Adds t l (bs ++ bs') l'' where
  nodes x := by rw [h'.nodes, h.nodes, List.flatMap_append, List.count_append]; omega
  fields m := by
    have h1 := h.fields m
    have h2 := h'.fields m
    rw [List.flatMap_append, List.count_append]
    omega
  kept q hq := h'.kept q (h.kept q hq)
  pinned b hb := by
    rcases List.mem_append.mp hb with hb | hb
    · exact fun ho q hq => h'.kept q (h.pinned b hb ho q hq)
    · exact h'.pinned b hb
  unpinned hown := by
    rw [h'.unpinned fun b hb => hown b (List.mem_append_right _ hb)]
    exact h.unpinned fun b hb => hown b (List.mem_append_left _ hb)

theorem adds_of_extends {t : Tree} {l l' : Ledger} (h : Outline.Extends l l') : Adds t l [] l' where
  nodes x := by rw [nodeCount, nodeCount, h.nodes]; rfl
  fields m := h.fields m
  kept q hq := by rw [h.pinned]; exact hq
  pinned _ hb := nomatch hb
  unpinned _ := h.pinned

theorem adds_enter (t : Tree) (l : Ledger) (b : Block) : Adds t l [b] (l.enter t false b) where
  nodes x := by
    rw [List.flatMap_singleton]
    exact nodeCount_hold (l.refer b) t b x
  fields m := by rw [List.flatMap_singleton, count_fields_enter]
  kept q hq := by
    show q ∈ ((l.refer b).hold t b).pinned
    exact mem_pinned_hold hq
  pinned b' hb ho q hq := by
    obtain rfl := List.mem_singleton.mp hb
    show q ∈ ((l.refer b').hold t b').pinned
    unfold hold
    rw [if_neg (by rw [ho]; exact Bool.false_ne_true)]
    refine mem_pinned_pinParagraph ?_
    unfold pinParagraph
    rw [hq]
    exact List.mem_cons_self
  unpinned hown := by
    show ((l.refer b).hold t b).pinned = l.pinned
    rw [hold, if_pos (hown b List.mem_cons_self)]
    rfl

theorem adds_foldl_enter (t : Tree) (bs : List Block) (l : Ledger) : Adds t l bs (bs.foldl (enter t false) l) := by
  induction bs generalizing l with
  | nil => exact .refl t l
  | cons b bs ih => exact (adds_enter t l b).trans (ih _)

end Ledger

namespace Outline

theorem adds_of_takeAll {r : Registry} {t : Tree} {l l' : Ledger} {fields : List Field} {ss : List Statement}
    (h : takeAll r t l fields = .ok (ss, l')) : Ledger.Adds t l (ss.flatMap Statement.blocks) l' := by
  obtain ⟨n, hn⟩ : ∃ n, fields.length = n := ⟨_, rfl⟩
  induction n using Nat.strongRecOn generalizing fields l ss with
  | ind n ih =>
    cases fields with
    | nil => rw [takeAll] at h; cases h; exact .refl t _
    | cons f fields =>
      rw [List.length_cons] at hn
      obtain ⟨s?, l₁, left, ss', hf, hrec, rfl⟩ := takeAll_cons.mp h
      have hle := left.2
      have hrest := ih left.1.length (by omega) hrec rfl
      cases hc : closing? r f with
      | none =>
        obtain ⟨rfl, rfl, ⟨rfl, -⟩ | ⟨o, -, rfl⟩⟩ := (takeField_top_of_none hc).mp hf
        · exact hrest
        · exact hrest
      | some closing =>
        obtain ⟨stop, isMarker⟩ := closing
        obtain ⟨marks, e, l₂, s, h', -, rfl, rfl⟩ := (takeField_eq_ok hc).mp hf
        obtain ⟨inner, -, -, -, hext⟩ := takeUntil_eq_ok h'
        have hown := (Ledger.adds_of_extends hext).trans (Ledger.adds_foldl_enter t s.blocks l₂)
        exact hown.trans hrest

/-- The ledger of a scan covers the blocks of its statements. -/
theorem covers_of_ofFields {r : Registry} {t : Tree} {fields : List Field} {ss : List Statement} {l : Ledger}
    (h : ofFields r t fields = .ok (ss, l)) : Ledger.Covers t l (ss.flatMap Statement.blocks) := by
  have hadds := adds_of_takeAll h
  refine ⟨fun x => ?_, fun m => ?_, hadds.pinned⟩
  · rw [hadds.nodes]
    exact Nat.zero_add _
  · exact Nat.le_trans (Nat.le_add_left _ _) (hadds.fields m)

/-- Blocks with boundaries of their own pin nothing. -/
theorem pinned_of_ofFields {r : Registry} {t : Tree} {fields : List Field} {ss : List Statement} {l : Ledger}
    (h : ofFields r t fields = .ok (ss, l)) (hown : ∀ b ∈ ss.flatMap Statement.blocks, b.hasOwnBoundaries = true) :
    l.pinned = [] := (adds_of_takeAll h).unpinned hown

end Outline

/-! ## References of the fields at the top level -/

theorem Ledger.count_foldl_enter (t : Tree) (nested : Bool) (bs : List Block) (l : Ledger) (m : NodeId) :
    (bs.foldl (enter t nested) l).fields.count m = l.fields.count m + (bs.flatMap Block.marks).count m := by
  induction bs generalizing l with
  | nil => rfl
  | cons b bs ih =>
    rw [List.foldl_cons, ih, count_fields_enter, List.flatMap_cons, List.count_append]
    omega

namespace Outline

/-- The marker of a field that bounds no nested block is in none of them. -/
theorem Closes.count_marks {t : Tree} {f e : Field} {d : Directive} {marks : List Field} {s : Statement}
    (h : Closes t f d marks e s) {m : NodeId} (hm : ∀ g ∈ f :: marks ++ [e], g.marker ≠ m) :
    (s.blocks.flatMap Block.marks).count m = 0 := by
  rw [List.count_eq_zero]
  intro hmem
  obtain ⟨b, hb, hmb⟩ := List.mem_flatMap.mp hmem
  obtain ⟨hs, he⟩ := h.mem_ends hb
  simp only [Block.marks, List.mem_cons, List.not_mem_nil, or_false] at hmb
  rcases hmb with rfl | rfl
  · exact hm _ hs rfl
  · exact hm _ he rfl

/-- Looking for the end of a block adds no reference to the fields that it is looking for. -/
theorem count_of_takeUntil {r : Registry} {t : Tree} {start : Field} {stop : String} {isMarker : String → Bool}
    {l l' : Ledger} {fields marks : List Field} {e : Field} {rest : Rest fields}
    (h : takeUntil r t start stop isMarker l fields = .ok (marks, e, l', rest)) (hnd : fields.Nodup) {m : NodeId}
    (hm : ∀ inner, fields = inner ++ e :: rest.1 → ∀ g ∈ inner, g.marker = m → g ∈ marks) :
    l'.fields.count m = l.fields.count m := by
  induction hn : fields.length using Nat.strongRecOn generalizing start stop isMarker fields l l' marks e with
  | ind n ih =>
    cases fields with
    | nil => rw [takeUntil] at h; cases h
    | cons f fields =>
      rw [List.length_cons] at hn
      have hfields := (List.nodup_cons.mp hnd).2
      rcases takeUntil_cons.mp ⟨rest, h, rfl⟩ with ⟨-, -, -, rfl, -⟩ | ⟨-, -, marks', more, rfl, h, hr⟩ |
        ⟨-, -, s?, l₁, left, more, hf, h, hr⟩
      · rfl
      · refine ih fields.length (by omega) h hfields (fun inner hi g hg hgm => ?_) rfl
        have hgf : g ≠ f := fun he => (List.nodup_cons.mp hnd).1 (he ▸ hi ▸ List.mem_append_left _ hg)
        have hmem := hm (f :: inner) (by rw [← hr, List.cons_append, ← hi]) g (List.mem_cons_of_mem f hg) hgm
        exact (List.mem_cons.mp hmem).resolve_left hgf
      · have hle := left.2
        cases hc : closing? r f with
        | none =>
          rw [takeField_nested_of_none fields hc] at hf
          cases hf
          refine ih fields.length (by omega) h hfields (fun inner hi g hg hgm => ?_) rfl
          exact hm (f :: inner) (by rw [← hr, List.cons_append, ← hi]) g (List.mem_cons_of_mem f hg) hgm
        | some closing =>
          obtain ⟨stop', isMarker'⟩ := closing
          obtain ⟨marks', e', l₀, s, h', hclose, -, rfl⟩ := (takeField_eq_ok hc).mp hf
          obtain ⟨inner', hi', -, hfill', -⟩ := takeUntil_eq_ok h'
          obtain ⟨inner, hi, -, hfill, -⟩ := takeUntil_eq_ok h
          have hsplit : f :: fields = (f :: inner' ++ [e']) ++ left.1 := (congrArg (f :: ·) hi').trans (by simp)
          have hnd' := hsplit ▸ hnd
          obtain ⟨-, hleft, hdisj⟩ := List.nodup_append.mp hnd'
          have hall : f :: fields = (f :: inner' ++ [e'] ++ inner) ++ e :: rest.1 := hsplit.trans (by rw [hi, ← hr]; simp)
          -- the markers of the group stand behind it
          have hout : ∀ g ∈ f :: inner' ++ [e'], g.marker ≠ m := fun g hg hgm =>
            hdisj g hg g (hi ▸ List.mem_append_left _ (hfill.marks_sublist.subset (hm _ hall g (List.mem_append_left _ hg) hgm))) rfl
          have hinner : ∀ inner, fields = inner ++ e' :: left.1 → ∀ g ∈ inner, g.marker = m → g ∈ marks' := by
            intro inner hsame g hg hgm
            obtain rfl := List.append_cancel_right (hsame.symm.trans hi')
            exact absurd hgm (hout g (by simp [hg]))
          rw [ih left.1.length (by omega) h hleft (fun inner₁ hi₁ g hg => hm (f :: inner' ++ [e'] ++ inner₁)
              (hsplit.trans (by rw [hi₁, ← hr]; simp)) g (List.mem_append_right _ hg)) rfl,
            Ledger.count_foldl_enter, hclose.count_marks fun g hg => hout g ?_, Nat.add_zero,
            ih fields.length (by omega) h' hfields hinner rfl]
          simp only [List.cons_append, List.mem_cons, List.mem_append, List.not_mem_nil, or_false] at hg ⊢
          exact hg.imp_right (Or.imp_left fun hg => hfill'.marks_sublist.subset hg)

theorem count_of_takeAll {r : Registry} {t : Tree} {l l' : Ledger} {fields : List Field} {ss : List Statement}
    (h : takeAll r t l fields = .ok (ss, l')) (hnd : fields.Nodup) {m : NodeId}
    (hm : ∀ g ∈ fields, g.marker = m → g ∈ ss.flatMap topFields) :
    l'.fields.count m = l.fields.count m + ((ss.flatMap Statement.blocks).flatMap Block.marks).count m := by
  induction hn : fields.length using Nat.strongRecOn generalizing fields l ss with
  | ind n ih =>
    cases fields with
    | nil => rw [takeAll] at h; cases h; rfl
    | cons f fields =>
      rw [List.length_cons] at hn
      obtain ⟨hf, hfields⟩ := List.nodup_cons.mp hnd
      obtain ⟨s?, l₁, left, ss', htake, hrec, rfl⟩ := takeAll_cons.mp h
      have hle := left.2
      cases hc : closing? r f with
      | none =>
        obtain ⟨rfl, rfl, ⟨rfl, -⟩ | ⟨o, -, rfl⟩⟩ := (takeField_top_of_none hc).mp htake
        · exact ih fields.length (by omega) hrec hfields (fun g hg => hm g (List.mem_cons_of_mem f hg)) rfl
        · have hrest := ih fields.length (by omega) hrec hfields (fun g hg hgm =>
            (List.mem_cons.mp (hm g (List.mem_cons_of_mem f hg) hgm)).resolve_left fun he => hf (he ▸ hg)) rfl
          exact hrest
      | some closing =>
        obtain ⟨stop, isMarker⟩ := closing
        obtain ⟨marks, e, l₂, s, h', hclose, rfl, rfl⟩ := (takeField_eq_ok hc).mp htake
        obtain ⟨inner, hi, -, hfill, -⟩ := takeUntil_eq_ok h'
        have hsplit : f :: fields = (f :: inner ++ [e]) ++ left.1 := (congrArg (f :: ·) hi).trans (by simp)
        have hnd' := hsplit ▸ hnd
        obtain ⟨hgroup, hleft, hdisj⟩ := List.nodup_append.mp hnd'
        have hrest := (outlined_of_takeAll hrec).topFields_sublist
        have hsub : ∀ g ∈ f :: marks ++ [e], g ∈ f :: inner ++ [e] := by
          intro g hg
          simp only [List.cons_append, List.mem_cons, List.mem_append, List.not_mem_nil, or_false] at hg ⊢
          exact hg.imp_right (Or.imp_left fun hg => hfill.marks_sublist.subset hg)
        have htops : ∀ g ∈ f :: fields, g.marker = m → g ∈ f :: marks ++ [e] ∨ g ∈ ss'.flatMap topFields := by
          intro g hg hgm
          have hg := hm g hg hgm
          rwa [Option.toList_some, List.singleton_append, List.flatMap_cons, hclose.topFields, List.mem_append] at hg
        rw [ih left.1.length (by omega) hrec hleft (fun g hg hgm => ?_) rfl, Ledger.count_foldl_enter,
          count_of_takeUntil h' hfields fun inner₁ hi₁ g hg hgm => ?_, Option.toList_some, List.singleton_append,
          List.flatMap_cons, List.flatMap_append, List.count_append, Nat.add_assoc]
        · obtain rfl := List.append_cancel_right (hi₁.symm.trans hi)
          rcases htops g (List.mem_cons_of_mem f (hi ▸ List.mem_append_left _ hg)) hgm with hg' | hg'
          · simp only [List.cons_append, List.mem_cons, List.mem_append, List.not_mem_nil, or_false] at hg'
            rcases hg' with rfl | hg' | rfl
            · exact absurd (hi ▸ List.mem_append_left _ hg) hf
            · exact hg'
            · exact absurd rfl ((List.nodup_append.mp hgroup).2.2 g (List.mem_cons_of_mem f hg) g (List.mem_singleton_self g))
          · exact absurd rfl (hdisj g (by simp [hg]) g (hrest.subset hg'))
        · exact (htops g (hsplit ▸ List.mem_append_right _ hg) hgm).resolve_left fun hg' => hdisj g (hsub g hg') g hg rfl

/-- A boundary field has as many references as there are blocks at the top level that it bounds. -/
theorem count_of_ofFields {r : Registry} {t : Tree} (ht : t.WellFormed) {id : NodeId} {ss : List Statement} {l : Ledger}
    (h : ofFields r t (t.fields id) = .ok (ss, l)) {f : Field} (hf : f ∈ ss.flatMap topFields) :
    l.fieldCount f = ((ss.flatMap Statement.blocks).flatMap Block.marks).count f.marker := by
  have hmem := (outlined_of_takeAll h).topFields_sublist.subset hf
  have hcount := count_of_takeAll h (List.Nodup.of_map _ (ht.nodup_markers id)) fun g hg hgm =>
    (eq_of_marker_eq hg hmem hgm).symm ▸ hf
  rw [Ledger.fieldCount, hcount]
  exact Nat.zero_add _

end Outline

/-! ## Giving up a block -/

namespace Block

/-- The nodes that leave with a boundary, and the ledger without it. -/
def givenUp (b : Block) (f : Field) (id : NodeId) (l : Ledger) : List NodeId × Ledger :=
  let l' := (l.releaseField f).2
  if b.hasOwnBoundaries then
    (if (l'.releaseNode id).1 then [id] else if (l.releaseField f).1 then f.anchors else [], (l'.releaseNode id).2)
  else (if (l.releaseField f).1 then f.anchors else [], l')

/-- The ledger behind the block. -/
def after (b : Block) (l : Ledger) : Ledger :=
  (b.givenUp b.endField b.endNode (b.givenUp b.startField b.startNode l).2).2

/-- The nodes that leave when the block gives way. -/
def leaving (b : Block) (l : Ledger) : List NodeId :=
  (if b.kind = .image then [] else b.body) ++ ((b.givenUp b.startField b.startNode l).1 ++
    (b.givenUp b.endField b.endNode (b.givenUp b.startField b.startNode l).2).1)

theorem releaseBoundary_eq (b : Block) (f : Field) (id : NodeId) (t : Tree) (l : Ledger) :
    b.releaseBoundary f id (t, l) = (t.detachAll (b.givenUp f id l).1, (b.givenUp f id l).2) := by
  unfold releaseBoundary givenUp
  by_cases ho : b.hasOwnBoundaries = true
  · simp only [ho, if_true]
    split
    · rfl
    · split <;> rfl
  · simp only [ho, Bool.false_eq_true, if_false]
    split <;> rfl

theorem detachAll_append (t : Tree) (l l' : List NodeId) : t.detachAll (l ++ l') = (t.detachAll l).detachAll l' :=
  List.foldl_append

/-- The content is put behind the start node, and some nodes leave. -/
theorem replace_eq (b : Block) (content : List NodeId) (t : Tree) (l : Ledger) :
    b.replace content t l = ((t.insertAllAfter b.startNode content).detachAll (b.leaving l), b.after l) := by
  unfold replace leaving after
  rw [detachAll_append, detachAll_append]
  by_cases hk : b.kind = .image
  · simp only [hk, if_true, releaseBoundary_eq]
    rfl
  · simp only [hk, if_false, releaseBoundary_eq]

end Block

namespace Ledger

theorem count_erase {α : Type} [DecidableEq α] (l : List α) (a x : α) : (l.erase a).count x = l.count x - [a].count x := by
  by_cases h : x = a
  · subst h
    rw [List.count_erase_self, List.count_singleton_self]
  · rw [List.count_erase_of_ne h, List.count_singleton, if_neg (by simpa using Ne.symm h)]
    rfl

theorem count_nodes_givenUp (b : Block) (f : Field) (id x : NodeId) (l : Ledger) :
    (b.givenUp f id l).2.nodeCount x = l.nodeCount x - (if b.hasOwnBoundaries then [id] else []).count x := by
  unfold Block.givenUp
  split
  · exact count_erase _ _ _
  · rfl

theorem count_fields_givenUp (b : Block) (f : Field) (id m : NodeId) (l : Ledger) :
    (b.givenUp f id l).2.fields.count m = l.fields.count m - [f.marker].count m := by
  unfold Block.givenUp
  split <;> exact count_erase _ _ _

theorem pinned_givenUp (b : Block) (f : Field) (id : NodeId) (l : Ledger) : (b.givenUp f id l).2.pinned = l.pinned := by
  unfold Block.givenUp
  split <;> rfl

@[simp] theorem pinned_after (b : Block) (l : Ledger) : (b.after l).pinned = l.pinned := by
  rw [Block.after, pinned_givenUp, pinned_givenUp]

theorem nodeCount_after (b : Block) (l : Ledger) (x : NodeId) :
    (b.after l).nodeCount x = l.nodeCount x - b.ownNodes.count x := by
  rw [Block.after, count_nodes_givenUp, count_nodes_givenUp, Block.ownNodes]
  split
  · simp only [List.count_cons, List.count_nil]
    omega
  · rfl

theorem count_fields_after (b : Block) (l : Ledger) (m : NodeId) :
    (b.after l).fields.count m = l.fields.count m - b.marks.count m := by
  rw [Block.after, count_fields_givenUp, count_fields_givenUp, Block.marks]
  simp only [List.count_cons, List.count_nil]
  omega

/-- Without its first block the others are still covered. -/
theorem Covers.after {t : Tree} {l : Ledger} {b : Block} {bs : List Block} (h : Covers t l (b :: bs)) :
    Covers t (b.after l) bs where
  nodes x := by
    rw [nodeCount_after, h.nodes, List.flatMap_cons, List.count_append]
    omega
  fields m := by
    have hm := h.fields m
    rw [List.flatMap_cons, List.count_append] at hm
    rw [count_fields_after]
    omega
  pinned b' hb' := by
    rw [pinned_after]
    exact h.pinned b' (List.mem_cons_of_mem b hb')

/-- What leaves is in the body, or is a boundary or an anchor of a boundary field that no
    other block refers to. -/
theorem mem_leaving {b : Block} {l : Ledger} {x : NodeId} (hx : x ∈ b.leaving l) :
    (b.kind ≠ .image ∧ x ∈ b.body) ∨ (x ∈ b.ownNodes ∧ (b.after l).nodeCount x = 0 ∧ x ∉ l.pinned) ∨
      ∃ f, (f = b.startField ∨ f = b.endField) ∧ x ∈ f.anchors ∧ (b.after l).fields.count f.marker = 0 := by
  have hgiven : ∀ {f id} {l' : Ledger}, x ∈ (b.givenUp f id l').1 →
      (b.hasOwnBoundaries = true ∧ x = id ∧ (b.givenUp f id l').2.nodeCount x = 0 ∧ x ∉ l'.pinned) ∨
        x ∈ f.anchors ∧ (b.givenUp f id l').2.fields.count f.marker = 0 := by
    intro f id l' hmem
    unfold Block.givenUp at hmem ⊢
    have hfree : (l'.releaseField f).1 = true → ((l'.releaseField f).2).fields.count f.marker = 0 := fun he => by
      simpa [releaseField, fieldCount] using he
    by_cases ho : b.hasOwnBoundaries = true
    · simp only [ho, if_true] at hmem ⊢
      split at hmem
      · next hnode =>
        obtain rfl := List.mem_singleton.mp hmem
        simp only [releaseNode, Bool.and_eq_true, beq_iff_eq, Bool.not_eq_true', isPinned, List.contains_eq_mem,
          decide_eq_false_iff_not] at hnode
        exact Or.inl ⟨trivial, rfl, hnode.1, hnode.2⟩
      · split at hmem
        · next he => exact Or.inr ⟨hmem, hfree he⟩
        · cases hmem
    · simp only [ho, Bool.false_eq_true, if_false] at hmem ⊢
      split at hmem
      · next he => exact Or.inr ⟨hmem, hfree he⟩
      · cases hmem
  unfold Block.leaving at hx
  rcases List.mem_append.mp hx with hx | hx
  · split at hx
    · cases hx
    · next hk => exact Or.inl ⟨hk, hx⟩
  refine Or.inr ?_
  rcases List.mem_append.mp hx with hx | hx
  · rcases hgiven hx with ⟨ho, rfl, hcount, hpin⟩ | ⟨ha, hcount⟩
    · refine Or.inl ⟨by simp [Block.ownNodes, ho], ?_, hpin⟩
      rw [Block.after, count_nodes_givenUp, hcount, Nat.zero_sub]
    · refine Or.inr ⟨_, Or.inl rfl, ha, ?_⟩
      rw [Block.after, count_fields_givenUp, hcount, Nat.zero_sub]
  · rcases hgiven hx with ⟨ho, rfl, hcount, hpin⟩ | ⟨ha, hcount⟩
    · rw [pinned_givenUp] at hpin
      exact Or.inl ⟨by simp [Block.ownNodes, ho], hcount, hpin⟩
    · exact Or.inr ⟨_, Or.inr rfl, ha, hcount⟩

/-- A boundary that no other block refers to leaves, if it is not pinned. -/
theorem mem_leaving_of_free {b : Block} {l : Ledger} {x : NodeId} (hx : x ∈ b.ownNodes) (hcount : (b.after l).nodeCount x = 0)
    (hpin : x ∉ l.pinned) : x ∈ b.leaving l := by
  have ho : b.hasOwnBoundaries = true := by
    unfold Block.ownNodes at hx
    split at hx
    · assumption
    · cases hx
  have hgiven : ∀ {f id} {l' : Ledger}, x = id → (b.givenUp f id l').2.nodeCount x = 0 → x ∉ l'.pinned →
      x ∈ (b.givenUp f id l').1 := by
    rintro f id l' rfl hc hp
    unfold Block.givenUp at hc ⊢
    simp only [ho, if_true] at hc ⊢
    have hfree : (((l'.releaseField f).2).releaseNode x).1 = true := by
      simp only [releaseNode, Bool.and_eq_true, beq_iff_eq, Bool.not_eq_true', isPinned, List.contains_eq_mem,
        decide_eq_false_iff_not]
      exact ⟨hc, hp⟩
    rw [if_pos hfree]
    exact List.mem_singleton_self x
  have hpin' : x ∉ (b.givenUp b.startField b.startNode l).2.pinned := by rw [pinned_givenUp]; exact hpin
  unfold Block.leaving
  refine List.mem_append_right _ ?_
  by_cases hend : x = b.endNode
  · exact List.mem_append_right _ (hgiven hend hcount hpin')
  · have hstart : x = b.startNode := by
      rw [Block.ownNodes, if_pos ho] at hx
      simpa [hend] using hx
    refine List.mem_append_left _ (hgiven hstart ?_ hpin)
    rw [Block.after, count_nodes_givenUp, if_pos ho, List.count_singleton, if_neg (by simpa using Ne.symm hend)] at hcount
    exact hcount

end Ledger

end MailMerge
