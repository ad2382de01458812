/-
  MailMerge.Proofs.Template.Stage — how far the work on sibling paragraphs has come.

  The statements of a scan are carried out in order. At each stage the children of one node
  fall into those that are done and those still to come; the latter look as they did when
  the scan was made. A block takes its start marker, its body and, unless the next branch
  needs it, its end marker away, and puts its content behind what is done.

  Proved: what a block between marker paragraphs takes out (`leaving_ofParagraphs`); the blocks of
  one statement, linked from marker to marker, leave the content of the chosen one behind
  (`Stage.giveWayTo`).
-/

import MailMerge.Proofs.Block.Uses
import MailMerge.Proofs.Merge.Edits
import MailMerge.Proofs.Template.Plan

namespace MailMerge

open MailMerge.Tree Merge

/-- The blocks still to be replaced are blocks between marker paragraphs, and the ledger
    counts them. -/
structure Ledger.Lists (t : Tree) (l : Ledger) (bs : List Block) : Prop where
  covers : l.Covers t bs
  pinned : l.pinned = []
  shape : ∀ b ∈ bs, ∃ c body e, b = Block.ofParagraphs t c body e

namespace Ledger.Lists

variable {t : Tree} {l : Ledger} {bs : List Block} {b : Block}

theorem after (h : l.Lists t (b :: bs)) : (b.after l).Lists t bs where
  covers := h.covers.after
  pinned := by rw [pinned_after]; exact h.pinned
  shape b' hb' := h.shape b' (List.mem_cons_of_mem b hb')

/-- A block that needs a paragraph needs the field in it, too. -/
theorem mem_marks (h : l.Lists t bs) {x : NodeId} (hx : x ∈ bs.flatMap Block.ownNodes) :
    (t.fieldIn x).marker ∈ bs.flatMap Block.marks := by
  obtain ⟨b, hb, hxb⟩ := List.mem_flatMap.mp hx
  obtain ⟨c, body, e, rfl⟩ := h.shape b hb
  refine List.mem_flatMap.mpr ⟨_, hb, ?_⟩
  have hown : (Block.ofParagraphs t c body e).ownNodes = [c, e] := rfl
  rw [hown, List.mem_cons, List.mem_singleton] at hxb
  have hmarks : (Block.ofParagraphs t c body e).marks = [(t.fieldIn c).marker, (t.fieldIn e).marker] := rfl
  rw [hmarks]
  rcases hxb with rfl | rfl <;> simp

/-- With the block go its body, its start, and its end unless another block needs it. -/
theorem leaving_ofParagraphs {c e : NodeId} {body : List NodeId} (h : l.Lists t (Block.ofParagraphs t c body e :: bs)) (hne : c ≠ e)
    (hc : c ∉ bs.flatMap Block.ownNodes) : (Block.ofParagraphs t c body e).leaving l =
      body ++ ([c] ++ if e ∈ bs.flatMap Block.ownNodes then [] else [e]) := by
  have hown : ∀ x, (Block.ofParagraphs t c body e).ownNodes.count x = [c, e].count x := fun _ => rfl
  have hgiven : ∀ (f : Field) (id : NodeId) (l' : Ledger), ((Block.ofParagraphs t c body e).givenUp f id l').1 =
      if ((l'.releaseField f).2.releaseNode id).1 then [id] else if (l'.releaseField f).1 then f.anchors else [] :=
    fun _ _ _ => rfl
  have hfree : ∀ (f : Field) (id : NodeId) (l' : Ledger), l'.pinned = [] →
      (((l'.releaseField f).2.releaseNode id).1 = true ↔ l'.nodeCount id - 1 = 0) := by
    intro f id l' hp
    have hpin : ((l'.releaseField f).2).isPinned id = false := by
      show l'.pinned.contains id = false
      rw [hp]; rfl
    show ((l'.nodes.erase id).count id == 0 && !((l'.releaseField f).2).isPinned id) = true ↔ l'.nodes.count id - 1 = 0
    rw [hpin, List.count_erase_self]
    simp
  have hnodes : ∀ x, l.nodeCount x = [c, e].count x + (bs.flatMap Block.ownNodes).count x := fun x => by
    rw [h.covers.nodes, List.flatMap_cons, List.count_append, hown]
  -- the start is not needed any more
  have hstart : ((Block.ofParagraphs t c body e).givenUp (t.fieldIn c) c l).1 = [c] := by
    rw [hgiven, if_pos ((hfree _ _ _ h.pinned).mpr _)]
    rw [hnodes, List.count_eq_zero.mpr hc, List.count_cons_self, List.count_singleton, if_neg (by simpa using Ne.symm hne)]
  have hl : ∀ x, ((Block.ofParagraphs t c body e).givenUp (t.fieldIn c) c l).2.nodeCount x = l.nodeCount x - [c].count x :=
    fun x => count_nodes_givenUp _ _ _ _ _
  have hpin := (pinned_givenUp (Block.ofParagraphs t c body e) (t.fieldIn c) c l).trans h.pinned
  have hfields := count_fields_givenUp (Block.ofParagraphs t c body e) (t.fieldIn c) c (t.fieldIn e).marker l
  generalize hl' : ((Block.ofParagraphs t c body e).givenUp (t.fieldIn c) c l).2 = l' at hl hpin hfields
  have hcount : l'.nodeCount e - 1 = (bs.flatMap Block.ownNodes).count e := by
    have hce : ([c] : List NodeId).count e = 0 := by rw [List.count_singleton, if_neg (by simpa using hne)]
    rw [hl, hnodes, List.count_cons, List.count_singleton_self, if_neg (by simpa using hne), hce]
    omega
  have hstop : ((Block.ofParagraphs t c body e).givenUp (t.fieldIn e) e l').1 =
      if e ∈ bs.flatMap Block.ownNodes then [] else [e] := by
    rw [hgiven]
    by_cases hmem : e ∈ bs.flatMap Block.ownNodes
    · have hpos := List.count_pos_iff.mpr hmem
      have hmark := List.count_pos_iff.mpr (h.after.mem_marks hmem)
      have hall := h.covers.fields (t.fieldIn e).marker
      have hmarks : (Block.ofParagraphs t c body e).marks = [(t.fieldIn c).marker, (t.fieldIn e).marker] := rfl
      rw [List.flatMap_cons, List.count_append, hmarks, List.count_cons, List.count_singleton_self] at hall
      rw [List.count_singleton] at hfields
      have hheld : ¬ ((l'.releaseField (t.fieldIn e)).2.releaseNode e).1 = true := fun he => by
        rw [hfree _ _ _ hpin] at he
        omega
      have hused : ¬ (l'.releaseField (t.fieldIn e)).1 = true := fun he => by
        replace he : (l'.fields.erase (t.fieldIn e).marker).count (t.fieldIn e).marker = 0 := beq_iff_eq.mp he
        rw [List.count_erase_self] at he
        omega
      rw [if_pos hmem, if_neg hheld, if_neg hused]
    · rw [if_neg hmem, if_pos ((hfree _ _ _ hpin).mpr _)]
      rw [hcount, List.count_eq_zero.mpr hmem]
  show body ++ (((Block.ofParagraphs t c body e).givenUp (t.fieldIn c) c l).1 ++
    ((Block.ofParagraphs t c body e).givenUp (t.fieldIn e) e ((Block.ofParagraphs t c body e).givenUp (t.fieldIn c) c l).2).1) = _
  rw [hstart, hl', hstop]

end Ledger.Lists

/-! ## Stages -/

theorem filter_out {c : NodeId} {before content gone after out : List NodeId}
    (hnd : (before ++ c :: content ++ (gone ++ after)).Nodup) (hout : ∀ x, x ∈ out ↔ x ∈ c :: gone) :
    (before ++ c :: content ++ (gone ++ after)).filter (· ∉ out) = before ++ (content ++ after) := by
  have hkeep : ∀ {l : List NodeId}, (∀ x ∈ l, x ∉ c :: gone) → l.filter (· ∉ out) = l := fun hl =>
    List.filter_eq_self.mpr fun x hx => decide_eq_true fun hmem => hl x hx ((hout x).mp hmem)
  have hdrop : ∀ {l : List NodeId}, (∀ x ∈ l, x ∈ c :: gone) → l.filter (· ∉ out) = [] := fun hl =>
    List.filter_eq_nil_iff.mpr fun x hx => by simpa using (hout x).mpr (hl x hx)
  have hperm : (before ++ c :: content ++ (gone ++ after)).Perm ((c :: gone) ++ (before ++ content ++ after)) := by
    refine List.perm_iff_count.mpr fun x => ?_
    simp only [List.count_append, List.count_cons]
    omega
  rw [hperm.nodup_iff, List.nodup_append'] at hnd
  have hfree : ∀ x, x ∈ before ++ content ++ after → x ∉ c :: gone := fun x hx hmem => hnd.2.2 hmem hx
  rw [List.filter_append, List.filter_append, List.filter_append, ← List.singleton_append, List.filter_append,
    hkeep fun x hx => hfree x (by simp [hx]), hdrop fun x hx => by simp_all, hkeep fun x hx => hfree x (by simp [hx]),
    hdrop fun x hx => List.mem_cons_of_mem c hx, hkeep fun x hx => hfree x (by simp [hx])]
  simp

/-- The children of `p` that are done look like `ws`. Those still to come, and what is not below
    `p`, have not changed since the scan of `t`. -/
structure Stage (t : Tree) (p : NodeId) (ws : List Twig) (cs : List NodeId) (u : Tree) : Prop where
  wellFormed : u.WellFormed
  lt_size : p < u.size
  kind : u.kind p = t.kind p
  above : ∀ a, t.Within a p → u.Within a p
  done : ∃ as, u.children p = as ++ cs ∧ as.map u.twig = ws
  still : ∀ c ∈ cs, c ∈ t.children p
  same : ∀ c ∈ cs, ∀ d, t.Within c d → u.kind d = t.kind d ∧ u.children d = t.children d

theorem stage_start {t : Tree} (h : t.WellFormed) {p : NodeId} (hp : p < t.size) {before cs : List NodeId}
    (hc : t.children p = before ++ cs) : Stage t p (before.map t.twig) cs t :=
  ⟨h, hp, rfl, fun _ => id, ⟨before, hc, rfl⟩, fun _ hx => by rw [hc]; exact List.mem_append_right before hx,
    fun _ _ _ _ => ⟨rfl, rfl⟩⟩

namespace Stage

variable {t u v : Tree} {p : NodeId} {ws : List Twig} {gone cs : List NodeId} (ht : t.WellFormed)

include ht

theorem within_iff (hS : Stage t p ws cs u) {c d : NodeId} (hc : c ∈ cs) : u.Within c d ↔ t.Within c d := by
  constructor
  · intro hw
    induction hw with
    | refl => exact within_refl t c
    | @tail q d _ hp ih =>
      have hmem := hS.wellFormed.mem_of_parent hp
      rw [(hS.same c hc q ih).2] at hmem
      exact within_parent ih (ht.parent_of_mem hmem)
  · intro hw
    induction hw with
    | refl => exact within_refl u c
    | @tail q d hq hp ih =>
      have hmem := ht.mem_of_parent hp
      rw [← (hS.same c hc q hq).2] at hmem
      exact within_parent ih (hS.wellFormed.parent_of_mem hmem)

theorem twig (hS : Stage t p ws cs u) {c : NodeId} (hc : c ∈ cs) : u.twig c = t.twig c :=
  twig_congr ht hS.wellFormed fun d hd => hS.same c hc d hd

theorem twigs (hS : Stage t p ws cs u) {bs : List NodeId} (hbs : ∀ x ∈ bs, x ∈ cs) : bs.map u.twig = bs.map t.twig :=
  List.map_congr_left fun b hb => hS.twig ht (hbs b hb)

omit ht in
theorem mem_children (hS : Stage t p ws cs u) {c : NodeId} (hc : c ∈ cs) : c ∈ u.children p := by
  obtain ⟨as, has, -⟩ := hS.done
  rw [has]
  exact List.mem_append_right as hc

omit ht in
theorem nodup (hS : Stage t p ws cs u) : cs.Nodup := by
  obtain ⟨as, has, -⟩ := hS.done
  have hnd := hS.wellFormed.distinct p
  rw [has] at hnd
  exact hnd.of_append_right

omit ht in
theorem start_ne_end {c e : NodeId} {bs : List NodeId} (hS : Stage t p ws (c :: bs ++ e :: cs) u) : c ≠ e := fun he => by
  have hnd := hS.nodup
  rw [he, List.cons_append, List.nodup_cons] at hnd
  exact hnd.1 (by simp)

/-- Some children become new ones, and the others stay as they are. -/
theorem step {P : NodeId → Prop} (hS : Stage t p ws (gone ++ cs) u) (hrel : Relists P u v) (hin : ∀ d, P d → u.Within p d)
    (hP : ∀ x ∈ u.children p, x ∉ gone → ∀ d, u.Within x d → ¬ P d) {ws' : List Twig}
    (hnew : ∀ as, u.children p = as ++ (gone ++ cs) → ∃ new, v.children p = as ++ (new ++ cs) ∧ new.map v.twig = ws') :
    Stage t p (ws ++ ws') cs v := by
  obtain ⟨as, has, hws⟩ := hS.done
  obtain ⟨new, hch, htwigs⟩ := hnew as has
  have hnd := hS.wellFormed.distinct p
  rw [has, List.nodup_append'] at hnd
  have hlt : ∀ x ∈ u.children p, x < u.size := fun x hx => hS.wellFormed.lt_size_of_mem hx
  refine ⟨hrel.wellFormed, Nat.lt_of_lt_of_le hS.lt_size hrel.grows, (hrel.kind p hS.lt_size).trans hS.kind,
    fun a ha => hrel.within hS.wellFormed hin (hS.above a ha), ⟨as ++ new, by rw [hch, List.append_assoc], ?_⟩,
    fun c hc => hS.still c (List.mem_append_right gone hc), fun c hc d hd => ?_⟩
  · rw [List.map_append, htwigs, ← hws]
    congr 1
    refine hrel.twigs hS.wellFormed fun a ha => ?_
    have hmem : a ∈ u.children p := by rw [has]; exact List.mem_append_left _ ha
    exact ⟨hlt a hmem, hP a hmem fun hg => hnd.2.2 ha (List.mem_append_left cs hg)⟩
  · have hcs : c ∈ gone ++ cs := List.mem_append_right gone hc
    have hmem := hS.mem_children hcs
    have hout : c ∉ gone := fun hg => by
      have hnd' := hS.nodup
      rw [List.nodup_append'] at hnd'
      exact hnd'.2.2 hg hc
    have hd' := (hS.within_iff ht hcs).mpr hd
    have hdlt := Relists.lt_size_of_within (hlt c hmem) hd'
    obtain ⟨hk, hc'⟩ := hS.same c hcs d hd
    exact ⟨(hrel.kind d hdlt).trans hk, (hrel.children d hdlt (hP c hmem hout d hd')).trans hc'⟩

/-- A child that needs no work is done. -/
theorem pass {c : NodeId} (hS : Stage t p ws (c :: cs) u) : Stage t p (ws ++ [t.twig c]) cs u := by
  obtain ⟨as, has, hws⟩ := hS.done
  refine ⟨hS.wellFormed, hS.lt_size, hS.kind, hS.above, ⟨as ++ [c], by rw [has]; simp, ?_⟩,
    fun d hd => hS.still d (List.mem_cons_of_mem c hd), fun d hd => hS.same d (List.mem_cons_of_mem c hd)⟩
  rw [List.map_append, hws, List.map_singleton, hS.twig ht List.mem_cons_self]

/-- New nodes elsewhere change nothing. -/
theorem beyond (hS : Stage t p ws cs u) (h : Beyond u.size u v) : Stage t p ws cs v := by
  have hall : Stage t p (ws ++ []) cs v := by
    refine Stage.step (P := fun _ => False) ht (show Stage t p ws ([] ++ cs) u from hS) (.of_beyond h)
      (fun _ => False.elim) (fun _ _ _ _ _ => id) fun as has => ?_
    refine ⟨[], ?_, rfl⟩
    rw [h.children_eq hS.lt_size, has]
  rwa [List.append_nil] at hall

/-- Spare nodes take the place of some children. -/
theorem exchange {c : NodeId} {content out : List NodeId} (hS : Stage t p ws (c :: gone ++ cs) u)
    (hcontent : Spare u p content) (hout : ∀ x, x ∈ out ↔ x ∈ c :: gone) :
    Stage t p (ws ++ content.map u.twig) cs ((u.insertAllAfter c content).detachAll out) := by
  have hplace : ∀ as, u.children p = as ++ (c :: gone ++ cs) → Relists (· = p) u (u.insertAllAfter c content) ∧
      (u.insertAllAfter c content).children p = as ++ c :: content ++ (gone ++ cs) := fun as has =>
    hcontent.insert hS.wellFormed (by rw [has, List.cons_append])
  obtain ⟨as, has, -⟩ := hS.done
  obtain ⟨hins, hch⟩ := hplace as has
  have hgone : Relists (· = p) (u.insertAllAfter c content) ((u.insertAllAfter c content).detachAll out) := by
    refine hins.wellFormed.relists_detachAll fun x hx => ?_
    rw [hch]
    rcases List.mem_cons.mp ((hout x).mp hx) with rfl | hx <;> simp [*]
  refine Stage.step ht hS (hins.trans hgone) (fun d hd => hd ▸ within_refl u p) (fun x hx _ d hd he => ?_) fun as has => ?_
  · exact hS.wellFormed.not_within_of_parent (hS.wellFormed.parent_of_mem hx) (he ▸ hd)
  · refine ⟨content, ?_, ?_⟩
    · obtain ⟨-, hch⟩ := hplace as has
      have hnd := hins.wellFormed.distinct p
      rw [hch] at hnd
      rw [hins.wellFormed.children_detachAll, hch, filter_out hnd hout]
    · rw [(hins.trans hgone).twigs hS.wellFormed fun a ha => ?_]
      obtain ⟨-, hlt, -, hapart⟩ := hcontent.each a ha
      exact ⟨hlt, fun d hd he => hapart (he ▸ hd)⟩

/-- A block gives its place to spare nodes. Its end stays if it is needed. -/
theorem giveWay {s : Session} {c e : NodeId} {bs : List NodeId} {more : List Block} {content : List NodeId}
    (hS : Stage t p ws (c :: bs ++ e :: cs) s.tree) (hl : s.ledger.Lists t (Block.ofParagraphs t c bs e :: more))
    (hc : c ∉ more.flatMap Block.ownNodes) (hcontent : Spare s.tree p content) :
    Stage t p (ws ++ content.map s.tree.twig) ((if e ∈ more.flatMap Block.ownNodes then [e] else []) ++ cs)
      ((Block.ofParagraphs t c bs e).giveWay content s).2.tree := by
  have hne := hS.start_ne_end
  have htree : ((Block.ofParagraphs t c bs e).giveWay content s).2.tree =
      (s.tree.insertAllAfter c content).detachAll ((Block.ofParagraphs t c bs e).leaving s.ledger) := by
    rw [Block.run_giveWay, Block.replace_eq]
    rfl
  rw [htree, hl.leaving_ofParagraphs hne hc]
  by_cases hmem : e ∈ more.flatMap Block.ownNodes
  · rw [if_pos hmem, if_pos hmem]
    exact hS.exchange ht hcontent fun x => by simp [or_comm]
  · rw [if_neg hmem, if_neg hmem]
    have hS' : Stage t p ws (c :: (bs ++ [e]) ++ cs) s.tree := by simpa using hS
    exact hS'.exchange ht hcontent fun x => by simp [or_left_comm]

end Stage

/-! ## The blocks of a statement -/

/-- Spare nodes that look like `ws`. -/
structure Held (t : Tree) (p : NodeId) (content : List NodeId) (ws : List Twig) : Prop where
  spare : Spare t p content
  twigs : content.map t.twig = ws

theorem held_nil (t : Tree) (p : NodeId) : Held t p [] [] := ⟨⟨.nil, fun _ hx => nomatch hx⟩, rfl⟩

/-- Nodes stay spare when children of `p` leave. -/
theorem Held.detachAll {t : Tree} (h : t.WellFormed) {p : NodeId} {content ids : List NodeId} {ws : List Twig}
    (hheld : Held t p content ws) (hids : ∀ x ∈ ids, x ∈ t.children p) : Held (t.detachAll ids) p content ws := by
  have hwithin : ∀ {a d}, (t.detachAll ids).Within a d → t.Within a d := fun hw => by
    refine Relation.ReflTransGen.mono (fun q c hq => ?_) _ _ hw
    rw [parent_detachAll] at hq
    split at hq
    · cases hq
    · exact hq
  refine ⟨⟨hheld.spare.nodup, fun x hx => ?_⟩, ?_⟩
  · obtain ⟨hroot, hlt, hparent, hapart⟩ := hheld.spare.each x hx
    refine ⟨hroot, by rw [size_detachAll]; exact hlt, ?_, fun hw => hapart (hwithin hw)⟩
    rw [parent_detachAll, hparent, ite_self]
  · rw [(h.relists_detachAll hids).twigs h fun x hx => ?_, hheld.twigs]
    obtain ⟨-, hlt, -, hapart⟩ := hheld.spare.each x hx
    exact ⟨hlt, fun d hd he => hapart (he ▸ hd)⟩

/-- Nodes stay spare when a block gives way to nothing. -/
theorem Stage.held_giveWay_nil {t : Tree} {p c e : NodeId} {ws ws' : List Twig}
    {bs cs content : List NodeId} {more : List Block} {s : Session} (hS : Stage t p ws (c :: bs ++ e :: cs) s.tree)
    (hl : s.ledger.Lists t (Block.ofParagraphs t c bs e :: more)) (hc : c ∉ more.flatMap Block.ownNodes)
    (hheld : Held s.tree p content ws') : Held ((Block.ofParagraphs t c bs e).giveWay [] s).2.tree p content ws' := by
  rw [Block.run_giveWay, Block.replace_eq]
  refine hheld.detachAll hS.wellFormed fun x hx => hS.mem_children ?_
  rw [hl.leaving_ofParagraphs hS.start_ne_end hc] at hx
  have hmem : x ∈ bs ∨ x = c ∨ x = e := by
    split at hx
    · simpa using Or.imp_right Or.inl (by simpa using hx)
    · simpa using hx
  simp only [List.mem_append, List.mem_cons]
  rcases hmem with hx | rfl | rfl
  · exact Or.inl (Or.inr hx)
  · exact Or.inl (Or.inl rfl)
  · exact Or.inr (Or.inl rfl)

/-- Siblings in which each block reaches from one marker paragraph to the next. -/
inductive Chained (t : Tree) : List NodeId → List Block → Prop
  | stop {e : NodeId} : Chained t [e] []
  | block {c e : NodeId} {bs ns : List NodeId} {blocks : List Block} : Chained t (e :: ns) blocks →
      Chained t (c :: bs ++ e :: ns) (Block.ofParagraphs t c bs e :: blocks)

theorem Chained.ownNodes_subset {t : Tree} {ns : List NodeId} {blocks : List Block} (h : Chained t ns blocks) {x : NodeId}
    (hx : x ∈ blocks.flatMap Block.ownNodes) : x ∈ ns := by
  induction h with
  | stop => cases hx
  | @block c e bs ns blocks _ ih =>
    rw [List.flatMap_cons, List.mem_append] at hx
    rcases hx with hx | hx
    · have hown : (Block.ofParagraphs t c bs e).ownNodes = [c, e] := rfl
      rw [hown] at hx
      simp only [List.mem_cons, List.not_mem_nil, or_false] at hx
      rcases hx with rfl | rfl <;> simp
    · exact List.mem_append_right _ (ih hx)

/-- The blocks give way one after the other; the content of the chosen one stays. -/
theorem Stage.giveWayTo {t : Tree} (ht : t.WellFormed) {p : NodeId} {ns cs content : List NodeId} {blocks more : List Block}
    {ws ws' : List Twig} {chosen place : Nat} {s : Session} (hchain : Chained t ns blocks) (hne : blocks ≠ [])
    (hS : Stage t p ws (ns ++ cs) s.tree) (hl : s.ledger.Lists t (blocks ++ more))
    (hout : ∀ x ∈ ns, x ∉ more.flatMap Block.ownNodes) (hheld : place ≤ chosen → Held s.tree p content ws') :
    ∃ s', Statement.giveWayTo chosen content place blocks s = (.ok (), s') ∧ s'.env = s.env ∧ s'.ledger.Lists t more ∧
      Stage t p (ws ++ if place ≤ chosen ∧ chosen < place + blocks.length then ws' else []) cs s'.tree := by
  induction hchain generalizing place ws s with
  | stop => exact absurd rfl hne
  | @block c e bs ns blocks hrest ih =>
    have hS' : Stage t p ws (c :: bs ++ e :: (ns ++ cs)) s.tree := by simpa using hS
    have hnd := hS.nodup
    rw [List.append_assoc, List.nodup_append'] at hnd
    have hc : c ∉ (blocks ++ more).flatMap Block.ownNodes := by
      rw [List.flatMap_append, List.mem_append]
      rintro (hmem | hmem)
      · exact hnd.2.2 List.mem_cons_self (List.mem_append_left cs (hrest.ownNodes_subset hmem))
      · exact hout c (by simp) hmem
    have he : e ∉ more.flatMap Block.ownNodes := hout e (by simp)
    -- what the first block is given
    have hgive : Held s.tree p (if chosen = place then content else []) (if chosen = place then ws' else []) := by
      split
      · next heq => exact hheld (Nat.le_of_eq heq.symm)
      · exact held_nil _ _
    have hlist : s.ledger.Lists t (Block.ofParagraphs t c bs e :: (blocks ++ more)) := hl
    have hone := hS'.giveWay ht hlist hc hgive.spare
    rw [hgive.twigs] at hone
    have hrun := Statement.run_giveWayTo_cons chosen content place (Block.ofParagraphs t c bs e) blocks s
    have hnil : Held s.tree p content ws' → Held ((Block.ofParagraphs t c bs e).giveWay [] s).2.tree p content ws' :=
      hS'.held_giveWay_nil hlist hc
    generalize hs₁ : ((Block.ofParagraphs t c bs e).giveWay (if chosen = place then content else []) s).2 = s₁ at hone hrun
    have henv : s₁.env = s.env := by rw [← hs₁, Block.run_giveWay]
    have hledger : s₁.ledger.Lists t (blocks ++ more) := by
      rw [← hs₁, Block.run_giveWay, Block.replace_eq]
      exact hlist.after
    rw [hrun]
    cases hrest with
    | stop =>
      have hkeep : e ∉ ([] ++ more).flatMap Block.ownNodes := he
      rw [if_neg hkeep, List.nil_append] at hone
      refine ⟨s₁, rfl, henv, hledger, ?_⟩
      have hpick : (place ≤ chosen ∧ chosen < place + [Block.ofParagraphs t c bs e].length) ↔ chosen = place := by
        rw [List.length_singleton]; omega
      simpa only [hpick, List.nil_append] using hone
    | @block _ e' bs' ns' blocks' hrest =>
      have hown : e ∈ ((Block.ofParagraphs t e bs' e' :: blocks') ++ more).flatMap Block.ownNodes := by
        have hfirst : (Block.ofParagraphs t e bs' e').ownNodes = [e, e'] := rfl
        rw [List.cons_append, List.flatMap_cons, hfirst]
        simp
      rw [if_pos hown, List.singleton_append] at hone
      have hheld' : place + 1 ≤ chosen → Held s₁.tree p content ws' := fun hlt => by
        rw [if_neg (by omega : ¬ chosen = place)] at hs₁
        rw [← hs₁]
        exact hnil (hheld (by omega))
      obtain ⟨s', hrun', henv', hledger', hstage⟩ := ih (List.cons_ne_nil _ _) hone hledger
        (fun x hx => hout x (List.mem_append_right _ hx)) hheld'
      refine ⟨s', hrun', henv'.trans henv, hledger', ?_⟩
      have hws : ((if chosen = place then ws' else []) ++
          if place + 1 ≤ chosen ∧ chosen < place + 1 + (Block.ofParagraphs t e bs' e' :: blocks').length then ws' else []) =
          if place ≤ chosen ∧ chosen < place + (Block.ofParagraphs t c bs e :: Block.ofParagraphs t e bs' e' :: blocks').length then ws'
          else [] := by
        simp only [List.length_cons]
        by_cases heq : chosen = place
        · rw [if_pos heq, if_neg (by omega), if_pos (by omega), List.append_nil]
        · rw [if_neg heq, List.nil_append]
          exact if_congr (by omega) rfl rfl
      rw [List.append_assoc, hws] at hstage
      exact hstage

end MailMerge
