/-
  MailMerge.Proofs.Outline.Rebuilt — a body that is copied is built again.

  When a block is carried out, the fields of the copy are scanned and grouped as those of the
  part were. The groups in the body were taken once before, to see where the block ends. In a
  body that is closed in itself they are all there under other names: where a group is at the
  boundary, the copy has none of it, and where it is in the body the copy has all of it.

  Proved: the copy of such a body has an outline, and the blocks in it that will be copied in
  turn have the bodies of blocks of the part, under other names (`exists_outlined_copy`).
-/

import MailMerge.Proofs.Block.Renamed
import MailMerge.Proofs.Block.Sealed

namespace MailMerge

open MailMerge.Tree

namespace Outline

/-! ## Groups under other names -/

section names

variable {r : Registry} {t u : Tree} {ρ : Field → Field} (hρ : ∀ f, (ρ f).expression = f.expression) {Q : Block → Block → Prop}

include hρ

/-- If all blocks are enclosed again, so are the branches. -/
theorem Branched.renamed {name : String} {start : Field} {marks : List Field} {cs : List Condition} {other : Option Block}
    (h : Branched t name start marks cs other)
    (hcopy : ∀ b ∈ blocksOf cs other, ∃ b', Block.resolve? u (ρ b.startField) (ρ b.endField) = some b' ∧ Q b b') :
    ∃ cs' other', Branched u name (ρ start) (marks.map ρ) cs' other' ∧
      ∀ b' ∈ blocksOf cs' other', ∃ b ∈ blocksOf cs other, Q b b' := by
  induction h with
  | done => exact ⟨[], none, .done, nofun⟩
  | @otherwise start stop b he hr =>
    obtain ⟨rfl, rfl⟩ := Block.ends_of_resolve? hr
    obtain ⟨b', hb', hq⟩ := hcopy b (List.mem_singleton_self b)
    refine ⟨[], some b', .otherwise ((hρ _).trans he) hb', fun c hc => ?_⟩
    obtain rfl := List.mem_singleton.mp hc
    exact ⟨b, List.mem_singleton_self b, hq⟩
  | @more start stop marks guard o b cs other hne hguard ho hr _ ih =>
    obtain ⟨rfl, rfl⟩ := Block.ends_of_resolve? hr
    obtain ⟨b', hb', hq⟩ := hcopy b List.mem_cons_self
    obtain ⟨cs', other', hmore, hin⟩ := ih fun c hc => hcopy c (List.mem_cons_of_mem b hc)
    refine ⟨⟨o, guard.predicate, b'⟩ :: cs', other', .more (by rwa [hρ]) (by rwa [hρ]) ho hb' hmore, fun c hc => ?_⟩
    rcases List.mem_cons.mp hc with rfl | hc
    · exact ⟨b, List.mem_cons_self, hq⟩
    · obtain ⟨d, hd, hq⟩ := hin c hc
      exact ⟨d, List.mem_cons_of_mem b hd, hq⟩

omit hρ in
theorem Closes.one {f e : Field} {d : Directive} {s : Statement} {b : Block} (hb : Block.resolve? t f e = some b)
    (hcopy : ∃ b', Block.resolve? u (ρ b.startField) (ρ b.endField) = some b' ∧ Q b b')
    {make : Block → Statement} (hmake : ∀ b', Block.resolve? u (ρ f) (ρ e) = some b' → Closes u (ρ f) d [] (ρ e) (make b'))
    (hs : ∀ b', (make b').copied = [b'] ∧ s.copied = [b] ∨ (make b').copied = []) :
    ∃ s', Closes u (ρ f) d [] (ρ e) s' ∧ ∀ b' ∈ s'.copied, ∃ b ∈ s.copied, Q b b' := by
  obtain ⟨rfl, rfl⟩ := Block.ends_of_resolve? hb
  obtain ⟨b', hb', hq⟩ := hcopy
  refine ⟨make b', hmake b' hb', fun c hc => ?_⟩
  rcases hs b' with ⟨hone, hone'⟩ | hnone
  · rw [hone] at hc
    obtain rfl := List.mem_singleton.mp hc
    exact ⟨b, by rw [hone']; exact List.mem_singleton_self b, hq⟩
  · rw [hnone] at hc
    cases hc

/-- If all blocks of a statement are enclosed again, its group makes one again. -/
theorem Closes.renamed {f e : Field} {d : Directive} {marks : List Field} {s : Statement} (h : Closes t f d marks e s)
    (hcopy : ∀ b ∈ s.blocks, ∃ b', Block.resolve? u (ρ b.startField) (ρ b.endField) = some b' ∧ Q b b') :
    ∃ s', Closes u (ρ f) d (marks.map ρ) (ρ e) s' ∧ ∀ b' ∈ s'.copied, ∃ b ∈ s.copied, Q b b' := by
  cases h with
  | loop ho hb => exact Closes.one hb (hcopy _ List.mem_cons_self) (fun b' hb' => .loop ho hb') fun _ => Or.inl ⟨rfl, rfl⟩
  | condition ho hb =>
    exact Closes.one hb (hcopy _ List.mem_cons_self) (fun b' hb' => .condition ho hb') fun _ => Or.inl ⟨rfl, rfl⟩
  | picture ho hb => exact Closes.one hb (hcopy _ List.mem_cons_self) (fun b' hb' => .picture ho hb') fun _ => Or.inr rfl
  | comment hb => exact Closes.one hb (hcopy _ List.mem_cons_self) (fun b' hb' => .comment hb') fun _ => Or.inr rfl
  | @choice guard e m marks o b cs other ho hb hmore =>
    obtain ⟨rfl, rfl⟩ := Block.ends_of_resolve? hb
    obtain ⟨b', hb', hq⟩ := hcopy b List.mem_cons_self
    obtain ⟨cs', other', hmore', hin⟩ := hmore.renamed hρ (Q := Q) fun c hc => hcopy c (List.mem_cons_of_mem b hc)
    rw [List.map_append] at hmore'
    refine ⟨.choice (⟨o, guard.predicate, b'⟩ :: cs') other', .choice ho hb' hmore', fun c hc => ?_⟩
    rcases List.mem_cons.mp hc with rfl | hc
    · exact ⟨b, List.mem_cons_self, hq⟩
    · obtain ⟨d, hd, hq⟩ := hin c hc
      exact ⟨d, List.mem_cons_of_mem b hd, hq⟩

end names

/-- The block of `u` has the body of a block of `t` that is copied, under other names. -/
structure CopyOf (r : Registry) (t : Tree) (fs : List Field) (u : Tree) (b' : Block) : Prop where
  source : ∃ s b φ, Group r t fs s ∧ b ∈ s.copied ∧ b'.kind = b.kind ∧ b'.body = b.body.map φ ∧ Renames t b.body φ u

/-! ## Outlines of copies -/

section copies

variable {r : Registry} {t u : Tree} (ht : t.WellFormed) (hu : u.WellFormed) {id c : NodeId} {φ : NodeId → NodeId} {b : Block}
  (h : Rehoused t b.body φ u c) (hseal : b.Sealed r t (t.fields id))
  (hwhole : ∀ f ∈ t.fields id, b.Holds t f → ∀ a ∈ f.anchors, t.Under b.body a)
  (hkind : ∀ s, Group r t (t.fields id) s → ∀ b' ∈ s.copied, b'.kind ≠ .image)

include ht hu h hseal hwhole hkind

/-- A group in the body makes a statement in the copy. -/
theorem Closes.copy {f e : Field} {d : Directive} {marks : List Field} {s : Statement} (hclose : Closes t f d marks e s)
    (hgroup : Group r t (t.fields id) s) (hin : ∀ g ∈ f :: marks ++ [e], g ∈ t.fields id ∧ b.Holds t g) :
    ∃ s', Closes u (f.renamed φ u) d (marks.map (Field.renamed φ u)) (e.renamed φ u) s' ∧
      ∀ b' ∈ s'.copied, CopyOf r t (t.fields id) u b' := by
  have hcopy : ∀ b₁ ∈ s.blocks, ∃ b', Block.resolve? u (b₁.startField.renamed φ u) (b₁.endField.renamed φ u) = some b' ∧
      (b₁.kind ≠ .image → b'.kind = b₁.kind ∧ b'.body = b₁.body.map φ ∧ ∀ n ∈ b₁.body, t.Under b.body n) := by
    intro b₁ hb₁
    obtain ⟨hs, he⟩ := hclose.mem_ends hb₁
    have hstart := hwhole _ (hin _ hs).1 (hin _ hs).2
    refine h.resolve? ht hu (hstart _ (Field.first_mem_anchors _)) (hwhole _ (hin _ he).1 (hin _ he).2 _
      (Field.first_mem_anchors _)) (hstart _ (Field.last_mem_anchors _)) (hclose.resolves hb₁) fun hk => ?_
    obtain ⟨q, hq, hanc⟩ := hseal.inline s (mem_started.mpr hgroup) b₁ hb₁ (hin _ hs).2 hk
    exact ⟨q, ht.mem_subtrees.mp hq, hanc⟩
  have hsame : ∀ f : Field, (f.renamed φ u).expression = f.expression := fun _ => rfl
  obtain ⟨s', hclose', hcopied⟩ := hclose.renamed hsame hcopy
  refine ⟨s', hclose', fun b' hb' => ?_⟩
  obtain ⟨b₁, hb₁, hq⟩ := hcopied b' hb'
  obtain ⟨hk, hbody, hunder⟩ := hq (hkind s hgroup b₁ hb₁)
  exact ⟨s, b₁, φ, hgroup, hb₁, hk, hbody, h.renames.mono hunder⟩

/-- Groups that the body holds are groups of the copy. -/
theorem Filled.copy {stop : String} {isMarker : String → Bool} {inner marks : List Field} (hfill : Filled r t stop isMarker inner marks)
    (hfs : inner <:+: t.fields id) (hheld : ∀ f ∈ inner, b.Holds t f) :
    Filled r u stop isMarker (inner.map (Field.renamed φ u)) (marks.map (Field.renamed φ u)) := by
  induction hfill with
  | nil => exact .nil
  | @mark stop isMarker f inner marks hs hm hfill ih =>
    exact .mark hs hm (ih ((List.suffix_cons f inner).isInfix.trans hfs) fun g hg => hheld g (List.mem_cons_of_mem f hg))
  | @lone stop isMarker f inner marks hs hm hc hfill ih =>
    exact .lone hs hm hc (ih ((List.suffix_cons f inner).isInfix.trans hfs) fun g hg => hheld g (List.mem_cons_of_mem f hg))
  | @block stop stop' isMarker isMarker' f e inner inner' marks marks' s hs hm hc hin he hclose hfill ih' ih =>
    have hmem : ∀ g ∈ f :: marks' ++ [e], g ∈ f :: inner' ++ e :: inner := by
      intro g hg
      simp only [List.cons_append, List.mem_cons, List.mem_append, List.not_mem_nil, or_false] at hg ⊢
      exact hg.imp_right fun hg => hg.imp (fun hg => hin.marks_sublist.subset hg) Or.inl
    obtain ⟨s', hclose', -⟩ := hclose.copy ht hu h hseal hwhole hkind (.of_segment hfs hc hin he hclose) fun g hg =>
      ⟨hfs.subset (hmem g hg), hheld g (hmem g hg)⟩
    have hinner := ih' (List.IsInfix.trans ⟨[f], e :: inner, by simp⟩ hfs) fun g hg => hheld g (by simp [hg])
    have hrest := ih (List.IsInfix.trans ⟨f :: inner' ++ [e], [], by simp⟩ hfs) fun g hg => hheld g (by simp [hg])
    rw [List.map_append, List.map_cons, List.map_cons]
    exact .block hs hm hc hinner he hclose' hrest

/-- What the body holds of some groups has an outline in the copy. -/
theorem Filled.outlined_copy {stop : String} {isMarker : String → Bool} {inner marks : List Field}
    (hfill : Filled r t stop isMarker inner marks) (hfs : inner <:+: t.fields id)
    (hr : Block.resolve? t b.startField b.endField = some b) (hmarks : ∀ m ∈ marks, ¬ b.Holds t m) :
    ∃ ss, Outlined r u ((inner.filter (b.Holds t ·)).map (Field.renamed φ u)) ss ∧
      ∀ st ∈ ss, ∀ b' ∈ st.copied, CopyOf r t (t.fields id) u b' := by
  induction hfill with
  | nil => exact ⟨[], .nil, nofun⟩
  | @mark stop isMarker f inner marks _ _ _ ih =>
    rw [List.filter_cons_of_neg (by simpa using hmarks f List.mem_cons_self)]
    exact ih ((List.suffix_cons f inner).isInfix.trans hfs) fun m hm => hmarks m (List.mem_cons_of_mem f hm)
  | @lone stop isMarker f inner marks _ _ hc _ ih =>
    obtain ⟨ss, hout, hcopied⟩ := ih ((List.suffix_cons f inner).isInfix.trans hfs) hmarks
    by_cases hheld : b.Holds t f
    · rw [List.filter_cons_of_pos (by simpa using hheld), List.map_cons]
      have hf : f ∈ t.fields id := hfs.subset List.mem_cons_self
      have hread := hseal.readable f hf hheld
      have hnone : ∀ o, ∀ b' ∈ (Statement.insertion (f.renamed φ u) o).copied, CopyOf r t (t.fields id) u b' := fun _ _ => nofun
      unfold closing? at hc
      cases hd : r.directive f.expression with
      | nothing => exact ⟨ss, .skip hd hout, hcopied⟩
      | value o =>
        exact ⟨.insertion _ o :: ss, .insertion (Or.inr hd) hout, List.forall_mem_cons.mpr ⟨hnone o, hcopied⟩⟩
      | insertion text =>
        rw [hd, Directive.isReadable] at hread
        cases ho : Operand.parse text with
        | error e =>
          rw [ho] at hread
          cases hread
        | ok o =>
          exact ⟨.insertion _ o :: ss, .insertion (Or.inl ⟨text, hd, ho⟩) hout, List.forall_mem_cons.mpr ⟨hnone o, hcopied⟩⟩
      | _ =>
        rw [hd] at hc
        cases hc
    · rw [List.filter_cons_of_neg (by simpa using hheld)]
      exact ⟨ss, hout, hcopied⟩
  | @block stop stop' isMarker isMarker' f e inner inner' marks marks' s _ _ hc hin he hclose _ ih' ih =>
    have hgroup := Group.of_segment hfs hc hin he hclose
    have hmem : ∀ g ∈ f :: marks' ++ [e], g ∈ t.fields id := by
      intro g hg
      refine hfs.subset ?_
      simp only [List.cons_append, List.mem_cons, List.mem_append, List.not_mem_nil, or_false] at hg ⊢
      exact hg.imp_right fun hg => hg.imp (fun hg => hin.marks_sublist.subset hg) Or.inl
    have hfs' : inner' <:+: t.fields id := List.IsInfix.trans ⟨[f], e :: inner, by simp⟩ hfs
    obtain ⟨ss, hout, hcopied⟩ := ih (List.IsInfix.trans ⟨f :: inner' ++ [e], [], by simp⟩ hfs) hmarks
    have htop := hseal.group s (mem_started.mpr hgroup)
    rw [hclose.topFields] at htop
    rcases htop with hall | hnone
    · -- the whole group is in the body, with all that is scanned between its ends
      have hinner : ∀ g ∈ inner', b.Holds t g := by
        intro g hg
        have hsub : [f, g, e].Sublist (f :: inner' ++ e :: inner) :=
          ((List.singleton_sublist.mpr hg).append ((List.nil_sublist inner).cons_cons e)).cons_cons f
        exact Block.held_of_between ht hr hseal.kind (hsub.trans hfs.sublist) (hall f (by simp)) (hall e (by simp))
      obtain ⟨s', hclose', hs'⟩ := hclose.copy ht hu h hseal hwhole hkind hgroup fun g hg => ⟨hmem g hg, hall g hg⟩
      have hfilled := hin.copy ht hu h hseal hwhole hkind hfs' hinner
      refine ⟨s' :: ss, ?_, List.forall_mem_cons.mpr ⟨hs', hcopied⟩⟩
      have hkeep : inner'.filter (b.Holds t ·) = inner' := List.filter_eq_self.mpr fun g hg => by simpa using hinner g hg
      rw [List.filter_append, List.filter_cons_of_pos (by simpa using hall f (by simp)),
        List.filter_cons_of_pos (by simpa using hall e (by simp)), hkeep, List.map_append, List.map_cons, List.map_cons]
      exact .block hc hfilled he hclose' hout
    · -- the group is at the boundaries, and what is in it stands by itself
      obtain ⟨ss', hout', hcopied'⟩ := ih' hfs' fun m hm => hnone m (by simp [hm])
      refine ⟨ss' ++ ss, ?_, fun st hst => (List.mem_append.mp hst).elim (hcopied' st) (hcopied st)⟩
      rw [List.filter_append, List.filter_cons_of_neg (by simpa using hnone f (by simp)),
        List.filter_cons_of_neg (by simpa using hnone e (by simp)), List.map_append]
      exact hout'.append hout

end copies

section bodies

variable {r : Registry} {t u : Tree} (ht : t.WellFormed) (hu : u.WellFormed) {id c : NodeId} {φ : NodeId → NodeId}
  {s : Statement} (hgroup : Group r t (t.fields id) s) {b : Block} (hb : b ∈ s.blocks) (h : Rehoused t b.body φ u c)
  (hseal : b.Sealed r t (t.fields id)) (hap : Apart t (t.fields id))

include ht hgroup hb hseal hap

theorem whole_of_apart : ∀ f ∈ t.fields id, b.Holds t f → ∀ a ∈ f.anchors, t.Under b.body a := by
  obtain ⟨hs, he⟩ := hgroup.mem_ends hb
  exact fun f hf hheld => Block.under_of_held ht (hgroup.resolves hb) hseal.kind hs he hap hf hheld

include hu h

/-- The fields of the copy are those that the body holds, under their other names. -/
theorem fields_copy : u.fields c = ((t.fields id).filter (b.Holds t ·)).map (Field.renamed φ u) := by
  obtain ⟨hs, he⟩ := hgroup.mem_ends hb
  exact h.fields ht hu (fun n hn => Block.body_within ht (hgroup.resolves hb) hseal.kind hs he hn) hseal.opening fun f hf hheld =>
    whole_of_apart ht hgroup hb hseal hap f hf (ht.mem_subtrees.mpr hheld)

/-- The copy of a body that is closed in itself has an outline, and its blocks are copies of
    blocks of the part. -/
theorem exists_outlined_copy (hkind : ∀ s, Group r t (t.fields id) s → ∀ b' ∈ s.copied, b'.kind ≠ .image) :
    ∃ ss, Outlined r u (u.fields c) ss ∧ ∀ st ∈ ss, ∀ b' ∈ st.copied, CopyOf r t (t.fields id) u b' := by
  obtain ⟨before, seg, after, stop, isMarker, hfs, hfill⟩ := hgroup.segment hb
  obtain ⟨hs, he⟩ := hgroup.mem_ends hb
  have hr := hgroup.resolves hb
  rw [fields_copy ht hu hgroup hb h hseal hap, Block.filter_held ht hr hseal.kind hs he hfs]
  exact hfill.outlined_copy ht hu h hseal (whole_of_apart ht hgroup hb hseal hap) hkind
    ⟨before ++ [b.startField], b.endField :: after, by rw [hfs]; simp⟩ hr nofun

/-- No field of the copy stands in another one. -/
theorem apart_copy : Apart u (u.fields c) := by
  have hwhole := whole_of_apart ht hgroup hb hseal hap
  rw [fields_copy ht hu hgroup hb h hseal hap]
  intro f' hf' g' hg' hne
  obtain ⟨f, hf, rfl⟩ := List.mem_map.mp hf'
  obtain ⟨g, hg, rfl⟩ := List.mem_map.mp hg'
  obtain ⟨hf, hfh⟩ := List.mem_filter.mp hf
  obtain ⟨hg, hgh⟩ := List.mem_filter.mp hg
  simp only [Field.anchors_renamed, List.forall_mem_map]
  intro a ha a' ha'
  have hua := hwhole f hf (of_decide_eq_true hfh) a ha
  have hua' := hwhole g hg (of_decide_eq_true hgh) a' ha'
  rw [Block.InLine, h.renames.within_iff ht hu hua hua', h.renames.within_iff ht hu hua' hua]
  exact hap f hf g hg (fun heq => hne (heq ▸ rfl)) a ha a' ha'

end bodies

end Outline

end MailMerge
