/-
  MailMerge.Proofs.Splice.Whole — a fragment takes a field's place as a whole.

  The elements of a fragment take the place of one node: of the run that displays the field's
  result, after which the field's markers go, or of the paragraph around that run. They come out
  of the node that they were read into, so no other child list changes, and what is in them
  stays as it was read or dressed.

  Proved: what the tree looks like where the fragment stands now, and that all other nodes
  are what they were; a fragment that cannot be read changes no node (`putMarkup_whole`).
-/

import MailMerge.Proofs.Merge.Spans
import MailMerge.Proofs.Splice.Seated

namespace MailMerge

open MailMerge.Tree

namespace Splice

variable {t u w : Tree} {f : Field} {c : NodeId} {ids : List NodeId}

/-! ## Spans -/

theorem keepsSpans_inheritFormatting (t : Tree) (run : NodeId) (ids : List NodeId) : KeepsSpans t (inheritFormatting t run ids) := by
  have hone : ∀ (u : Tree) (formatting x : NodeId), KeepsSpans u (formatRun formatting u x) := by
    intro u formatting x
    unfold formatRun
    split
    · exact .refl u
    · exact ((keepsSpans_copyTo u.size u formatting).trans (keepsSpans_detach _ _)).trans (keepsSpans_link _ _ x _)
  have hall : ∀ (runs : List NodeId) (u : Tree) (formatting : NodeId), KeepsSpans u (runs.foldl (formatRun formatting) u) := by
    intro runs
    induction runs with
    | nil => exact fun u _ => .refl u
    | cons x runs ih => exact fun u formatting => (hone u formatting x).trans (ih _ formatting)
  unfold inheritFormatting
  split
  · exact .refl t
  · exact hall _ t _

theorem keepsSpans_putElements (f : Field) (ids : List NodeId) (t : Tree) : KeepsSpans t (putElements f ids t) := by
  have hloc := Target.keepsSpans_locate t f
  have hrun : ∀ target u, KeepsSpans u (replaceRun f target ids u) := fun target u =>
    ((keepsSpans_insertAllAfter ids u _).trans (keepsSpans_detach _ _)).trans (Target.keepsSpans_finish _ f target)
  unfold putElements
  generalize Target.locate t f = found at hloc ⊢
  obtain ⟨target, u⟩ := found
  simp only at hloc ⊢
  split
  · exact hloc.trans ((keepsSpans_insertAllAfter ids u _).trans (keepsSpans_detach _ _))
  · exact (hloc.trans (keepsSpans_inheritFormatting u _ ids)).trans (hrun target _)
  · exact hloc.trans (hrun target u)

/-! ## Nothing else changes -/

/-- Outside `P` nothing that was in `t` has changed but the child list of `q`. -/
structure Confined (P : NodeId → Prop) (t : Tree) (q : NodeId) (row : List NodeId) (u : Tree) : Prop where
  wellFormed : u.WellFormed
  outside : ∀ x < t.size, ¬ P x → x ≠ q → u.node x = t.node x
  row : u.node q = { t.node q with children := row }

theorem node_eq (t : Tree) (x : NodeId) : t.node x = ⟨t.kind x, t.parent x, t.children x, t.span x⟩ := rfl

/-- It is enough to look at the child lists. -/
theorem confined_of_children (h : t.WellFormed) (hu : u.WellFormed) {P W : NodeId → Prop} (hl : Lifts t.size W t u) (hs : KeepsSpans t u)
    (hlow : ∀ p x, t.parent x = some p → P p → P x) {q : NodeId} (hq : q < t.size) (hqP : ¬ P q)
    (hc : ∀ x < t.size, ¬ P x → x ≠ q → u.children x = t.children x) {row : List NodeId} (hrow : u.children q = row)
    (hkeep : ∀ x ∈ t.children q, ¬ P x → x ∈ row) : Confined P t q row u := by
  have hparent : ∀ x < t.size, ¬ P x → u.parent x = t.parent x := by
    intro x hx hP
    cases hp : t.parent x with
    | some p =>
      have hmem := h.mem_of_parent hp
      refine hu.parent_of_mem ?_
      by_cases hpq : p = q
      · rw [hpq, hrow]
        exact hkeep x (hpq ▸ hmem) hP
      · rw [hc p (h.parent_lt_size hp) (fun hpP => hP (hlow p x hp hpP)) hpq]
        exact hmem
    | none =>
      -- nobody gets a parent who had none
      cases hp' : u.parent x with
      | none => rfl
      | some p =>
        rcases hl.parent x hx p hp' with he | ⟨w, -, he, -⟩
        · rw [hp] at he
          cases he
        · rw [hp] at he
          cases he
  refine ⟨hu, fun x hx hP hne => ?_, ?_⟩
  · rw [node_eq, node_eq, hl.kind x hx, hparent x hx hP, hc x hx hP hne, hs.span x hx]
  · rw [node_eq, hl.kind q hq, hparent q hq hqP, hrow, hs.span q hq]
    rfl

/-! ## One node makes way -/

/-- The nodes `ids` stand where `x` stood, and `x` stands nowhere. -/
structure MakesWay (t : Tree) (container x : NodeId) (ids : List NodeId) (u : Tree) : Prop where
  wellFormed : u.WellFormed
  grows : t.size ≤ u.size
  kind : ∀ y, u.kind y = t.kind y
  children : ∀ q, q ≠ container → u.children q = exchange x ids (t.children q)
  gone : u.parent x = none
  inner : ∀ y ∈ ids, ∀ d, t.Within y d → u.children d = t.children d

theorem makesWay (h : t.WellFormed) {container run x p : NodeId} (hl : Loose t container run ids) (hnd : ids.Nodup)
    (hx : t.Within x run) (hp : t.parent x = some p) (hne : p ≠ container) :
    MakesWay t container x ids ((t.insertAllAfter x ids).detach x) := by
  have hi := hl.insertable h hx
  have hw := h.insertAllAfter hi
  obtain ⟨before, after, hc⟩ := List.append_of_mem (h.mem_of_parent hp)
  obtain ⟨hb, ha⟩ := h.children_cut hc
  have hout : ∀ q, q ≠ container → ∀ y ∈ ids, y ∉ t.children q := fun q hq y hy hm =>
    hq (Option.some.inj ((h.parent_of_mem hm).symm.trans (hl.parent y hy)))
  have hself : x ∉ ids := fun hm => hl.apart x hm hx
  have hchildren : ∀ q, q ≠ container → ((t.insertAllAfter x ids).detach x).children q = exchange x ids (t.children q) := by
    intro q hq
    rw [hw.children_detach, h.children_insertAllAfter hi hc hnd (hout p hne)]
    split
    · next he =>
      rw [he, hc, exchange_cut hb ha, List.filter_append, List.filter_append, List.filter_cons_of_neg (by simp), filter_ne_self hb,
        filter_ne_self hself, filter_ne_self ha]
    · next hqp =>
      have hno : x ∉ t.children q := fun hm => hqp (Option.some.inj ((h.parent_of_mem hm).symm.trans hp))
      have hkeep : (t.children q).filter (· ∉ ids) = t.children q :=
        List.filter_eq_self.mpr fun y hy => decide_eq_true fun hm => hout q hq y hm hy
      rw [hkeep, filter_ne_self hno, exchange_of_not_mem hno]
  refine ⟨hw.detach x, ?_, fun y => ?_, hchildren, ?_, fun y hy d hd => ?_⟩
  · rw [size_detach]
    exact ((fenced_zero h).insertAllAfter (fun _ _ => Nat.zero_le _) (fun _ _ => Nat.zero_le _) hi).grows
  · rw [kind_detach, kind_insertAllAfter]
  · rw [parent_detach, if_pos rfl]
  · rw [hchildren d fun he => h.not_within_of_parent (hl.parent y hy) (he ▸ hd)]
    refine exchange_of_not_mem (fun hm => ?_) ids
    exact hl.apart y hy (within_trans hd (within_trans (within_of_parent (h.parent_of_mem hm)) hx))

/-! ## In the place of the run -/

/-- The tree when the run has made way for the nodes in a container, and the markers are gone. -/
structure Vacates (t : Tree) (f : Field) (c container : NodeId) (ids : List NodeId) (u : Tree) : Prop where
  wellFormed : u.WellFormed
  row : u.children c = f.vacated t ids c
  lists : ∀ x < t.size, ¬ t.Within container x → x ≠ c → f.run? t ≠ some x → (f.shape = .simple → x ≠ f.first) →
    u.children x = f.refilled t ids x
  gone : ∀ x, x ∈ f.anchors ∨ f.run? t = some x → u.parent x = none

/-- The run stands in its place, and loose nodes wait to take it. -/
structure Poised (t : Tree) (f : Field) (container run : NodeId) (ids : List NodeId) (w : Tree) : Prop where
  wellFormed : w.WellFormed
  stays : Stays t.size t w
  run_eq : run = (f.run? t).getD t.size
  loose : Loose w container run ids
  home : ∃ p, w.parent run = some p ∧ p ≠ container
  lists : ∀ x < t.size, ¬ t.Within container x → f.run? t ≠ some x → w.children x = f.refilled t [run] x

/-- The nodes have taken the run's place in `w`, and the markers are still there. -/
structure Refills (t : Tree) (f : Field) (container run : NodeId) (ids : List NodeId) (w v : Tree) : Prop extends
    MakesWay w container run ids v where
  lists : ∀ x < t.size, ¬ t.Within container x → f.run? t ≠ some x → v.children x = f.refilled t ids x

theorem within_of_sublist (h : t.WellFormed) {container y d : NodeId} (hids : ids.Sublist (t.children container)) (hy : y ∈ ids)
    (hd : t.Within y d) : t.Within container d :=
  within_trans (within_of_parent (h.parent_of_mem (hids.subset hy))) hd

theorem allInline_locate (h : t.WellFormed) {container : NodeId} (hids : ids.Sublist (t.children container)) :
    allInline (Target.locate t f).2 ids = allInline t ids := by
  refine allInline_congr (List.map_congr_left fun x hx => ?_)
  exact (Target.stays_locate (Nat.le_refl t.size) f).kind x (h.lt_size_of_mem (hids.subset hx))

theorem Poised.refills (h : t.WellFormed) (hf : f.Sits t c) {container run : NodeId} (hids : ids.Sublist (t.children container))
    (hp : Poised t f container run ids w) :
    Refills t f container run ids w ((w.insertAllAfter run ids).detach run) := by
  obtain ⟨p, hpar, hne⟩ := hp.home
  have hmade := makesWay hp.wellFormed hp.loose (hids.nodup (h.distinct container)) (within_refl w run) hpar hne
  refine ⟨hmade, fun x hx hout hr => ?_⟩
  rw [hmade.children x fun he => hout (he ▸ within_refl t x), hp.lists x hx hout hr, hf.exchange_refilled h hp.run_eq]

section put

variable (hf : f.Sits t c) {container : NodeId} (hapart : ∀ a ∈ f.anchors, ∀ x, t.Within container x → ¬ t.Within a x)

include hf hapart

theorem not_within_of_apart : ¬ t.Within container c := fun hw =>
  hapart f.first f.first_mem_anchors f.first (within_parent hw (hf.parent _ f.first_mem_anchors)) (within_refl t _)

variable (h : t.WellFormed)

include h

theorem Refills.row {run : NodeId} {v : Tree} (hv : Refills t f container run ids w v) : v.children c = f.refilled t ids c := by
  refine hv.lists c (h.parent_lt_size (hf.parent _ f.first_mem_anchors)) (not_within_of_apart hf hapart) fun hr => ?_
  obtain ⟨a, ha, hwa⟩ := f.within_run h hr
  exact hf.not_within_anchor h ha hwa

/-- In the container looking up the place changes nothing. -/
theorem children_apart {run : NodeId} (hs : Target.Seats f t run u) {d : NodeId} (hd : t.Within container d) (hdlt : d < t.size) :
    u.children d = t.children d := by
  have hout : ∀ a ∈ f.anchors, ¬ t.Within a d := fun a ha => hapart a ha d hd
  rw [hs.children d hdlt, hf.refilled_outside h (fun _ he => not_within_of_apart hf hapart (he ▸ hd)) hout]
  intro hr
  obtain ⟨a, ha, hw⟩ := f.within_run h hr
  exact hout a ha hw

variable (hids : ids.Sublist (t.children container))

include hids

theorem twigs_apart {run : NodeId} (hs : Target.Seats f t run u) : ids.map u.twig = ids.map t.twig := by
  refine List.map_congr_left fun y hy => twig_congr h hs.edited.wellFormed fun d hd => ?_
  have hdlt := Relists.lt_size_of_within (h.lt_size_of_mem (hids.subset hy)) hd
  exact ⟨hs.edited.kind d (Nat.not_le_of_lt hdlt), children_apart hf hapart h hs (within_of_sublist h hids hy hd) hdlt⟩

namespace Refills

variable {run : NodeId} {v : Tree} (hp : Poised t f container run ids w) (hv : Refills t f container run ids w v)

include hp hv

/-- None of the lists that the markers go from is in one of the nodes. -/
theorem twigs {P : NodeId → Prop} (hrel : Relists P v u) (hP : ∀ d, P d → d = c ∨ d ∈ f.anchors) : ids.map u.twig = ids.map w.twig := by
  refine List.map_congr_left fun y hy => twig_congr hp.wellFormed hrel.wellFormed fun d hd => ?_
  have hdlt := Nat.lt_of_lt_of_le (Relists.lt_size_of_within (lt_size_of_parent (hp.loose.parent y hy)) hd) hv.grows
  refine ⟨(hrel.kind d hdlt).trans (hv.kind d), (hrel.children d hdlt fun hd' => ?_).trans (hv.inner y hy d hd)⟩
  rcases hP d hd' with rfl | ha
  · have hclt := h.parent_lt_size (hf.parent _ f.first_mem_anchors)
    exact not_within_of_apart hf hapart (within_of_sublist h hids hy (hp.stays.within h hclt hd))
  · have hbefore := hp.stays.within h (lt_size_of_parent (hf.parent d ha)) hd
    exact hapart d ha d (within_of_sublist h hids hy hbefore) (within_refl t d)

/-- The markers of a complex field are taken out. -/
theorem vacates_detachAll (hs : f.shape = .complex) :
    Vacates t f c container ids (v.detachAll (f.anchors.filter (· != run))) ∧
      ids.map (v.detachAll (f.anchors.filter (· != run))).twig = ids.map w.twig := by
  have hrow := hv.row hf hapart h
  have hrun : ∀ x, f.run? t = some x → x = run := fun x hx => by rw [hp.run_eq, hx]; rfl
  have hmem : ∀ a ∈ f.anchors.filter (· != run), a ∈ v.children c := by
    intro a ha
    obtain ⟨ha, hne⟩ := List.mem_filter.mp ha
    rw [hrow]
    exact Field.mem_refilled (h.mem_of_parent (hf.parent a ha)) (fun hr => bne_iff_ne.mp hne (hrun a hr)) ids
  have hrel := hv.wellFormed.relists_detachAll hmem
  refine ⟨⟨hrel.wellFormed, ?_, fun x hx hout hxc hr _ => ?_, fun x hx => ?_⟩,
    hv.twigs hf hapart h hids hp hrel fun _ => Or.inl⟩
  · have hno : run ∉ v.children c := hv.wellFormed.not_mem_children hv.gone c
    rw [hv.wellFormed.children_detachAll, hrow, Field.vacated, hs]
    refine List.filter_congr fun y hy => ?_
    have hyr : y ≠ run := fun he => hno (by rw [hrow, ← he]; exact hy)
    simp [hyr]
  · rw [hrel.children x (Nat.lt_of_lt_of_le hx (Nat.le_trans hp.stays.grows hv.grows)) hxc, hv.lists x hx hout hr]
  · rw [parent_detachAll]
    split
    · rfl
    · next hno =>
      have hxr : x = run := by
        by_contra hxr
        exact hno (List.mem_filter.mpr ⟨hx.resolve_right fun hr => hxr (hrun x hr), bne_iff_ne.mpr hxr⟩)
      rw [hxr, hv.gone]

/-- What is in a field that is one element comes out of it. -/
theorem vacates_unwrap (hs : f.shape = .simple) :
    Vacates t f c container ids (v.unwrap f.first) ∧ ids.map (v.unwrap f.first).twig = ids.map w.twig := by
  obtain ⟨hanchors, -⟩ := hf.simple hs
  have hfirst := hf.parent f.first f.first_mem_anchors
  obtain ⟨before, after, hc⟩ := List.append_of_mem (h.mem_of_parent hfirst)
  obtain ⟨hb, ha⟩ := h.children_cut hc
  have hvc : v.children c = before ++ f.first :: after := by
    have hcomplex : f.shape = .complex → c ≠ c := fun hc => by rw [hs] at hc; cases hc
    rw [hv.row hf hapart h, hf.refilled_outside h hcomplex fun a ha => hf.not_within_anchor h ha, hc]
  have hfr : f.run? t ≠ some f.first := fun hr => by
    rcases f.run?_eq_some h hr with ⟨hc, -⟩ | ⟨-, -, hne, -⟩
    · rw [hs] at hc; cases hc
    · exact hne rfl
  have hin := hv.lists f.first (lt_size_of_parent hfirst)
    (fun hw => hapart f.first f.first_mem_anchors f.first hw (within_refl t f.first)) hfr
  obtain ⟨hrel, hlist⟩ := hv.wellFormed.unwrap_spec hvc
  refine ⟨⟨hrel.wellFormed, ?_, fun x hx hout hxc hr hxf => ?_, fun x hx => ?_⟩,
    hv.twigs hf hapart h hids hp hrel fun d hd => hd.imp_right fun (he : d = f.first) => he ▸ f.first_mem_anchors⟩
  · rw [hlist, hin, Field.vacated, hs]
    simp only
    rw [hc, exchange_cut hb ha]
  · have hxlt := Nat.lt_of_lt_of_le hx (Nat.le_trans hp.stays.grows hv.grows)
    rw [hrel.children x hxlt fun hd => hd.elim hxc (hxf hs), hv.lists x hx hout hr]
  · rw [hv.wellFormed.parent_unwrap]
    split
    · rfl
    · next hno =>
      have hxr : x = run := by
        rcases hx with hx | hx
        · rw [hanchors] at hx
          exact absurd (List.mem_singleton.mp hx) hno
        · rw [hp.run_eq, hx]
          rfl
      rw [hxr, hv.gone]
      rfl

end Refills

theorem Poised.vacates {target : Target} (hp : Poised t f container target.run ids w) :
    Vacates t f c container ids (replaceRun f target ids w) ∧ ids.map (replaceRun f target ids w).twig = ids.map w.twig := by
  have hrefills := hp.refills h hf hids
  unfold replaceRun Target.finish
  cases hs : f.shape with
  | complex => exact hrefills.vacates_detachAll hf hapart h hids hp hs
  | simple => exact hrefills.vacates_unwrap hf hapart h hids hp hs

variable (hlt : container < t.size)

include hlt

theorem poised_locate : Poised t f container (Target.locate t f).1.run ids (Target.locate t f).2 := by
  have hseats := Target.seats_locate h hf
  have hhosts : ∀ a ∈ f.anchors, Hosts t a ∧ ∀ x, t.Within container x → ¬ t.Within a x := fun a ha => ⟨hf.hosts a ha, hapart a ha⟩
  obtain ⟨p, hp⟩ := hseats.home
  refine ⟨hseats.edited.wellFormed, Target.stays_locate (Nat.le_refl _) f, hseats.run_eq,
    loose_locate h hlt hhosts fun x hx => h.parent_of_mem (hids.subset hx), ⟨p, hp, ?_⟩, fun x hx _ hr => hseats.children x hx hr⟩
  rintro rfl
  exact apart_locate h hlt hhosts (within_of_parent hp) (within_refl _ _)

/-- The nodes are dressed while they wait. -/
theorem poised_inheritFormatting :
    Poised t f container (Target.locate t f).1.run ids
        (inheritFormatting (Target.locate t f).2 (Target.locate t f).1.run ids) ∧
      ids.map (inheritFormatting (Target.locate t f).2 (Target.locate t f).1.run ids).twig =
        ids.map fun x => (t.twig x).dressed (f.formatting? t) := by
  have hseats := Target.seats_locate h hf
  have hpoised := poised_locate hf hapart h hids hlt
  have hcut : ∀ {d}, (Target.locate t f).2.Within container d → ¬ (Target.locate t f).2.Within (Target.locate t f).1.run d :=
    fun hd => apart_locate h hlt (fun a ha => ⟨hf.hosts a ha, hapart a ha⟩) hd
  have htwigs := twigs_apart hf hapart h hids hseats
  generalize (Target.locate t f).1.run = run at hseats hpoised hcut ⊢
  generalize (Target.locate t f).2 = u at hseats hpoised hcut htwigs ⊢
  have hu := hpoised.wellFormed
  have hsub : ids.Sublist (u.children container) := by
    rw [children_apart hf hapart h hseats (within_refl t container) hlt]
    exact hids
  have hrunless : ∀ x ∈ ids, ∀ d, u.Within x d → ¬ u.Within run d := fun x hx d hd =>
    hcut (within_trans (within_of_parent (hpoised.loose.parent x hx)) hd)
  obtain ⟨hrel, hdressed⟩ := dresses_inheritFormatting hu hsub hrunless
  refine ⟨⟨hrel.wellFormed, hpoised.stays.trans (stays_inheritFormatting hpoised.stays.grows run ids), hpoised.run_eq,
    hpoised.loose.inheritFormatting hu hseats.hosts.lt_size, ?_, fun x hx hout hr => ?_⟩, ?_⟩
  · obtain ⟨p, hp, hne⟩ := hpoised.home
    refine ⟨p, hrel.wellFormed.parent_of_mem ?_, hne⟩
    rw [hrel.children p (hu.parent_lt_size hp) fun ⟨x, hx, hxp⟩ => hpoised.loose.apart x hx (within_parent hxp hp)]
    exact hu.mem_of_parent hp
  · rw [hrel.children x (Nat.lt_of_lt_of_le hx hpoised.stays.grows), hpoised.lists x hx hout hr]
    rintro ⟨y, hy, hyx⟩
    exact hout (within_of_sublist h hids hy (hpoised.stays.within h hx hyx))
  · rw [hdressed, hseats.formatting]
    refine List.map_congr_left fun x hx => ?_
    rw [List.map_inj_left.mp htwigs x hx]

/-- Inline elements take the place of the run, dressed like it. -/
theorem putElements_inline (hall : allInline t ids = true) : Vacates t f c container ids (putElements f ids t) ∧
    ids.map (putElements f ids t).twig = ids.map fun x => (t.twig x).dressed (f.formatting? t) := by
  obtain ⟨hpoised, hdressed⟩ := poised_inheritFormatting hf hapart h hids hlt
  have hput : putElements f ids t = replaceRun f (Target.locate t f).1 ids
      (inheritFormatting (Target.locate t f).2 (Target.locate t f).1.run ids) := by
    unfold putElements
    simp only [allInline_locate h hids, hall]
  obtain ⟨hvacates, htwigs⟩ := hpoised.vacates hf hapart h hids
  rw [hput]
  exact ⟨hvacates, htwigs.trans hdressed⟩

/-- Where there is no paragraph other elements take the place of the run as they are. -/
theorem putElements_alone (hall : allInline t ids = false)
    (hnone : t.findAncestor? ((f.run? t).getD f.last) Word.paragraph = none) :
    Vacates t f c container ids (putElements f ids t) ∧ ids.map (putElements f ids t).twig = ids.map t.twig := by
  have hseats := Target.seats_locate h hf
  obtain ⟨hvacates, htwigs⟩ := (poised_locate hf hapart h hids hlt).vacates hf hapart h hids
  have hput : putElements f ids t = replaceRun f (Target.locate t f).1 ids (Target.locate t f).2 := by
    unfold putElements
    simp only [allInline_locate h hids, hall, hseats.above, hnone]
  rw [hput]
  exact ⟨hvacates, htwigs.trans (twigs_apart hf hapart h hids hseats)⟩

/-- And otherwise they take the place of the paragraph around it. -/
theorem putElements_paragraph (hall : allInline t ids = false) {paragraph q : NodeId}
    (hfound : t.findAncestor? ((f.run? t).getD f.last) Word.paragraph = some paragraph) (hq : t.parent paragraph = some q) :
    (putElements f ids t).WellFormed ∧ (putElements f ids t).parent paragraph = none ∧
      ids.map (putElements f ids t).twig = ids.map t.twig ∧ ∀ x < t.size, x ≠ container → ¬ t.Within paragraph x →
        (putElements f ids t).children x = exchange paragraph ids (t.children x) := by
  have hseats := Target.seats_locate h hf
  have hpoised := poised_locate hf hapart h hids hlt
  have hput : putElements f ids t = replaceParagraph paragraph ids (Target.locate t f).2 := by
    unfold putElements
    simp only [allInline_locate h hids, hall, hseats.above, hfound]
  have hcut : ∀ {d}, (Target.locate t f).2.Within container d → ¬ (Target.locate t f).2.Within (Target.locate t f).1.run d :=
    fun hd => apart_locate h hlt (fun a ha => ⟨hf.hosts a ha, hapart a ha⟩) hd
  have htwigs := twigs_apart hf hapart h hids hseats
  rw [hput, replaceParagraph]
  generalize (Target.locate t f).1.run = run at hseats hpoised hcut
  generalize (Target.locate t f).2 = u at hseats hpoised hcut htwigs ⊢
  have hu := hpoised.wellFormed
  obtain ⟨-, hw, -, -⟩ := hu.findAncestor?_eq_some (hseats.above.trans hfound)
  have hp : u.parent paragraph = some q := by
    rw [hseats.edited.parent paragraph (Nat.not_le_of_lt (lt_size_of_parent hq)), hq]
  have hmade := makesWay hu hpoised.loose (hids.nodup (h.distinct container)) hw hp fun he =>
    hcut (within_trans (within_of_parent (he ▸ hp)) hw) (within_refl u run)
  refine ⟨hmade.wellFormed, hmade.gone, ?_, fun x hx hne hout => ?_⟩
  · rw [← htwigs]
    exact List.map_congr_left fun y hy => twig_congr hu hmade.wellFormed fun d hd => ⟨hmade.kind d, hmade.inner y hy d hd⟩
  · have hkept := hseats.children_outside h hf hfound hx hout
    exact (hmade.children x hne).trans (congrArg _ hkept)

end put

/-! ## A whole fragment -/

/-- The nodes `ids` stand where the field's result was displayed, and nothing outside the field has changed. -/
structure TakesPlace (t : Tree) (f : Field) (c : NodeId) (ids : List NodeId) (u : Tree) : Prop extends
    Confined (fun x => ∃ a ∈ f.anchors, t.Within a x) t c (f.vacated t ids c) u where
  kind : ∀ x < t.size, u.kind x = t.kind x
  /-- In the field no child list changes but the one that the run stood in, or a new one would. -/
  lists : ∀ x < t.size, x ≠ c → f.run? t ≠ some x → (f.shape = .simple → x ≠ f.first) → u.children x = f.refilled t ids x
  /-- The markers and the run are gone. -/
  gone : ∀ x, x ∈ f.anchors ∨ f.run? t = some x → u.parent x = none

/-- The nodes `ids` stand in the child list of `q` where the paragraph stood, and nothing outside it has changed. -/
structure TakesParagraph (t : Tree) (paragraph q : NodeId) (ids : List NodeId) (u : Tree) : Prop extends
    Confined (t.Within paragraph) t q (exchange paragraph ids (t.children q)) u where
  gone : u.parent paragraph = none

theorem keepsSpans_putMarkup (h : t.WellFormed) (f : Field) (source : String) : KeepsSpans t (putMarkup f source t).2 := by
  obtain ⟨u, hu, ⟨e, he⟩ | he⟩ := putMarkup_cases h f source
  · rw [he]
    exact hu.beyond.keepsSpans (Nat.le_refl _)
  · rw [he]
    exact (hu.beyond.keepsSpans (Nat.le_refl _)).trans (keepsSpans_putElements f _ u)

section whole

variable (h : t.WellFormed) {r : NodeId} (hf : f ∈ t.fields r) (hc : t.parent f.first = some c) {source : String}

include h hf hc

theorem lifts_of_mem_fields (source : String) : Lifts t.size f.Wraps t (putMarkup f source t).2 := by
  have hsits := f.sits_of_mem_fields h hf hc
  exact lifts_putMarkup h (Nat.le_refl _) (fun a ha => ⟨Nat.zero_le a, hsits.hosts a ha⟩) (lt_size_of_parent hc) source

/-- What is seen below the container is seen of the tree before. -/
theorem takesPlace_of_vacates (hu : Fetched t u) (hput : putMarkup f source t = (.ok (), w))
    (hv : Vacates u f c t.size ids w) : TakesPlace t f c ids w := by
  have hsits := f.sits_of_mem_fields h hf hc
  have hmarker := lt_size_of_isElement (isElement_marker hf)
  have hlifts := lifts_of_mem_fields h hf hc source
  have hspans := keepsSpans_putMarkup h f source
  rw [hput] at hlifts hspans
  have hrun := hsits.run?_beyond h hu.beyond hmarker
  have hclt := h.parent_lt_size hc
  have hlists : ∀ x < t.size, x ≠ c → f.run? t ≠ some x → (f.shape = .simple → x ≠ f.first) → w.children x = f.refilled t ids x := by
    intro x hx hxc hr hxf
    rw [hv.lists x (Nat.lt_of_lt_of_le hx hu.beyond.grows) ?_ hxc (hrun ▸ hr) hxf, hsits.refilled_beyond h hu.beyond hmarker hx]
    exact fun hw => Nat.not_lt_of_le (hu.beyond.zone.within (Nat.le_refl t.size) hw) hx
  have hrow : w.children c = f.vacated t ids c := by
    rw [hv.row, hsits.vacated_beyond h hu.beyond hmarker]
  refine ⟨confined_of_children h hv.wellFormed hlifts hspans ?_ hclt ?_ ?_ hrow ?_, hlifts.kind, hlists, fun x hx => hv.gone x (hrun ▸ hx)⟩
  · rintro p x hp ⟨a, ha, hw⟩
    exact ⟨a, ha, within_parent hw hp⟩
  · rintro ⟨a, ha, hw⟩
    exact hsits.not_within_anchor h ha hw
  · intro x hx hout hxc
    rw [hlists x hx hxc (fun hr => hout (f.within_run h hr)) fun _ he => hout ⟨f.first, f.first_mem_anchors, he ▸ within_refl t x⟩]
    exact hsits.refilled_outside h (fun _ => hxc) (fun a ha hw => hout ⟨a, ha, hw⟩) ids
  · intro x hx hout
    unfold Field.vacated
    cases f.shape with
    | simple => exact mem_exchange.mpr (Or.inl ⟨hx, fun he => hout ⟨f.first, f.first_mem_anchors, he ▸ within_refl t x⟩⟩)
    | complex =>
      refine List.mem_filter.mpr ⟨Field.mem_refilled hx (fun hr => hout (f.within_run h hr)) ids, decide_eq_true fun ha => ?_⟩
      exact hout ⟨x, ha, within_refl t x⟩

theorem takesParagraph_of_lists (hu : Fetched t u) (hput : putMarkup f source t = (.ok (), w)) {paragraph q : NodeId}
    (hq : t.parent paragraph = some q) (hw : w.WellFormed) (hgone : w.parent paragraph = none)
    (hlists : ∀ x < u.size, x ≠ t.size → ¬ u.Within paragraph x → w.children x = exchange paragraph ids (u.children x)) :
    TakesParagraph t paragraph q ids w := by
  have hlifts := lifts_of_mem_fields h hf hc source
  have hspans := keepsSpans_putMarkup h f source
  rw [hput] at hlifts hspans
  have hout : ∀ x < t.size, ¬ t.Within paragraph x → w.children x = exchange paragraph ids (t.children x) := by
    intro x hx hno
    rw [← hu.beyond.children_eq hx]
    refine hlists x (Nat.lt_of_lt_of_le hx hu.beyond.grows) (Nat.ne_of_lt hx) fun hw => hno ?_
    exact (hu.beyond.within_iff_of_not_mem (fenced_size h) (Nat.not_le_of_lt hx)).mp hw
  have hqlt := h.parent_lt_size hq
  have hqout := h.not_within_of_parent hq
  have hconfined : Confined (t.Within paragraph) t q (exchange paragraph ids (t.children q)) w := by
    refine confined_of_children h hw hlifts hspans (fun p x hp hpw => within_parent hpw hp) hqlt hqout (fun x hx hno hne => ?_)
      (hout q hqlt hqout) fun x hx hno => ?_
    · rw [hout x hx hno, exchange_of_not_mem]
      exact fun hm => hne (Option.some.inj ((h.parent_of_mem hm).symm.trans hq))
    · exact mem_exchange.mpr (Or.inl ⟨hx, fun he => hno (he ▸ within_refl t x)⟩)
  exact ⟨hconfined, hgone⟩

/-- A fragment takes a field's place as a whole, or fails with its own error and changes no node.
    Its elements look as they do in the tree `v` of the text. Inline elements are dressed with the
    formatting of the run whose place they take; others take the place of the paragraph around the
    run, if there is one. -/
theorem putMarkup_whole (source : String) :
    (∀ e, Tree.ofText source 0 = .error e → ∃ u, putMarkup f source t = (.error e, u) ∧ ∀ x < t.size, u.node x = t.node x) ∧
    ∀ v, Tree.ofText source 0 = .ok v → ∃ u ids, putMarkup f source t = (.ok (), u) ∧ (∀ x ∈ ids, t.size ≤ x) ∧
      (allInline v (v.elementChildren root) = true →
        ids.map u.twig = (v.elementChildren root).map (fun x => (v.twig x).dressed (f.formatting? t)) ∧ TakesPlace t f c ids u) ∧
      (allInline v (v.elementChildren root) = false →
        (∀ paragraph q, t.findAncestor? ((f.run? t).getD f.last) Word.paragraph = some paragraph → t.parent paragraph = some q →
          ids.map u.twig = (v.elementChildren root).map v.twig ∧ TakesParagraph t paragraph q ids u) ∧
        (t.findAncestor? ((f.run? t).getD f.last) Word.paragraph = none →
          ids.map u.twig = (v.elementChildren root).map v.twig ∧ TakesPlace t f c ids u)) := by
  refine ⟨fun e he => ?_, fun v hv => ?_⟩
  · obtain ⟨u, hu, hput⟩ := fetched_of_error h f he
    exact ⟨u, hput, fun x hx => hu.beyond.same hx⟩
  obtain ⟨u, hu, hput⟩ := reads_of_ofText h f hv
  have hsits := f.sits_of_mem_fields h hf hc
  have hmarker := lt_size_of_isElement (isElement_marker hf)
  have hwu := hu.beyond.wellFormed
  -- the field in the tree that holds the fragment too
  have hsits' := hsits.beyond h hu.beyond
  have hrun := hsits.run?_beyond h hu.beyond hmarker
  have hformatting := hsits.formatting?_beyond h hu.beyond hmarker
  have hapart : ∀ a ∈ f.anchors, ∀ x, u.Within t.size x → ¬ u.Within a x := fun a ha => hu.apart (hsits.hosts a ha).lt_size
  have hsub : (u.elementChildren t.size).Sublist (u.children t.size) := List.filter_sublist
  have hinline := hu.allInline
  have hlt := hu.hosts.lt_size
  have habove : u.findAncestor? ((f.run? u).getD f.last) Word.paragraph = t.findAncestor? ((f.run? t).getD f.last) Word.paragraph := by
    rw [hrun]
    refine (hu.beyond.edited (zone_new h) fun _ => id).findAncestor? h ?_ _
    cases hr : f.run? t with
    | none => exact lt_size_of_parent (hsits.parent f.last f.last_mem_anchors)
    | some run =>
      obtain ⟨a, ha, hw⟩ := f.within_run h hr
      exact Relists.lt_size_of_within (hsits.hosts a ha).lt_size hw
  refine ⟨_, u.elementChildren t.size, hput, fun x hx => hu.beyond.zone.lower _ _ (hu.parent x hx) (Nat.le_refl _), fun hall => ?_,
    fun hall => ⟨fun paragraph q hfound hq => ?_, fun hnone => ?_⟩⟩
  · obtain ⟨hvacates, htwigs⟩ := putElements_inline hsits' hapart hwu hsub hlt (hinline.trans hall)
    refine ⟨?_, takesPlace_of_vacates h hf hc hu.toFetched hput hvacates⟩
    have hdressed := congrArg (List.map (Twig.dressed (f.formatting? t))) hu.twigs
    rw [List.map_map, List.map_map] at hdressed
    rw [htwigs, hformatting]
    exact hdressed
  · have hq' : u.parent paragraph = some q := (hu.beyond.parent_eq (lt_size_of_parent hq)).trans hq
    obtain ⟨hw, hgone, htwigs, hlists⟩ := putElements_paragraph hsits' hapart hwu hsub hlt (hinline.trans hall) (habove.trans hfound) hq'
    exact ⟨htwigs.trans hu.twigs, takesParagraph_of_lists h hf hc hu.toFetched hput hq hw hgone hlists⟩
  · obtain ⟨hvacates, htwigs⟩ := putElements_alone hsits' hapart hwu hsub hlt (hinline.trans hall) (habove.trans hnone)
    exact ⟨htwigs.trans hu.twigs, takesPlace_of_vacates h hf hc hu.toFetched hput hvacates⟩

end whole

namespace Signature

/-- A bold name in a field that is one element, with a text behind it. -/
def tree : Tree := ⟨#[⟨.container, none, [1], .none⟩, ⟨.element Word.paragraph [], some root, [2, 7], .none⟩,
  ⟨.element Word.simpleField [(Word.fieldInstruction, "MERGEFIELD =v")], some 1, [3], .none⟩,
  ⟨.element Word.run [], some 2, [4, 5], .none⟩, ⟨.element Word.runProperties [("bold", "true")], some 3, [], .none⟩,
  ⟨.element Word.text [], some 3, [6], .none⟩, ⟨.text "name", some 5, [], .none⟩, ⟨.element Word.run [], some 1, [], .none⟩]⟩

def field : Field := ⟨2, "=v", 2, [], .simple, true, .none⟩

/-- A run in an insertion. -/
def fragment : String := "<w:ins><w:r><w:t>Ann</w:t></w:r></w:ins>"

def fragmentTree : Tree :=
  ⟨#[⟨.container, none, [1], .none⟩, ⟨.element "w:ins" [], some 0, [2], ⟨0, 40⟩⟩, ⟨.element Word.run [], some 1, [3], ⟨7, 32⟩⟩,
    ⟨.element Word.text [], some 2, [4], ⟨12, 26⟩⟩, ⟨.text "Ann", some 3, [], ⟨17, 20⟩⟩]⟩

end Signature

open Signature in
/-- The run in the insertion is bold where it stands in front of the text. -/
theorem signed_in_bold : tree.WellFormed ∧ field ∈ tree.fields root ∧ tree.parent field.first = some 1 ∧
    ∃ u id, putMarkup field fragment tree = (.ok (), u) ∧ u.children 1 = [id, 7] ∧
      u.twig id = .node (.element "w:ins" []) [.node (.element Word.run []) [.node (.element Word.runProperties [("bold", "true")]) [],
        .node (.element Word.text []) [.node (.text "Ann") []]]] := by
  have hwell : tree.WellFormed := wellFormed_of_earlier (by decide) (by decide) (by decide)
  have hfield : field ∈ tree.fields root := by
    have hfields : tree.fields root = [field] := by cbv
    rw [hfields]
    exact List.mem_singleton_self field
  have hread : Tree.ofText fragment 0 = .ok fragmentTree := by cbv
  obtain ⟨u, ids, hput, -, hinline, -⟩ := (putMarkup_whole hwell hfield rfl fragment).2 fragmentTree hread
  obtain ⟨htwigs, hplace⟩ := hinline (by decide)
  obtain ⟨id, rfl, htwig⟩ := List.map_eq_singleton_iff.mp htwigs
  refine ⟨hwell, hfield, rfl, u, id, hput, ?_, htwig.trans (by cbv)⟩
  have hrow : u.children 1 = field.vacated tree [id] 1 := congrArg Node.children hplace.row
  rw [hrow]
  rfl

end Splice

end MailMerge
