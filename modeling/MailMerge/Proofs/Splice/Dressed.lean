/-
  MailMerge.Proofs.Splice.Dressed — the runs of a fragment get a formatting.

  A fragment is read into a node of its own, in the same way as it is read alone. Before its
  elements take the place of a run they are dressed: each run in them, at any depth, that has
  no formatting gets a copy of the formatting of that run, as its first child.

  Runs are dressed one after the other. Each gets a new node and no other child list changes,
  so a run that is dressed stays so, and the runs to come still look as they did.

  Proved: what stands in the new node looks like the elements of the text, and an error is the
  error of the text (`reads_of_ofText`, `fetched_of_error`); what the elements look like when
  they are dressed (`dresses_inheritFormatting`, `Dresses.twig`).
-/

import Mathlib.Data.List.Flatten
import MailMerge.Proofs.Splice.Inert
import MailMerge.Proofs.Splice.Nesting

namespace MailMerge

open MailMerge.Tree

/-! ## Twigs with a formatting -/

namespace Twig

/-- The formatting of a run. -/
def formatting? : Twig → Option Twig
  | node _ ws => ws.find? (·.kind.isNamed Word.runProperties)

mutual

/-- With `p` in front of what is in a run that has no formatting. -/
def dressed (p : Option Twig) : Twig → Twig
  | node k ws => node k ((if k.isNamed Word.run && (node k ws).formatting?.isNone then p.toList else []) ++ dressedIn p ws)

def dressedIn (p : Option Twig) : List Twig → List Twig
  | [] => []
  | w :: ws => dressed p w :: dressedIn p ws

end

theorem dressedIn_eq (p : Option Twig) (ws : List Twig) : dressedIn p ws = ws.map (dressed p) := by
  induction ws with
  | nil => rfl
  | cons w ws ih => rw [dressedIn, ih, List.map_cons]

mutual

theorem dressed_none : ∀ w : Twig, w.dressed none = w
  | node k ws => by
    rw [dressed, dressedIn_none ws]
    split <;> rfl

theorem dressedIn_none : ∀ ws : List Twig, dressedIn none ws = ws
  | [] => rfl
  | w :: ws => by rw [dressedIn, dressed_none w, dressedIn_none ws]

end

end Twig

/-! ## Reading -/

namespace Splice

variable {t u v : Tree}

/-- Fragments are alike if their elements look alike. -/
theorem allInline_congr {ids ids' : List NodeId} (h : ids.map u.kind = ids'.map v.kind) : allInline u ids = allInline v ids' := by
  have hkinds : ∀ (t : Tree) (ids : List NodeId), allInline t ids = (!(ids.map t.kind).isEmpty &&
      (ids.map t.kind).all (·.name?.any Word.inlineElements.contains)) := by
    intro t ids
    rw [allInline, List.isEmpty_map, List.all_map]
    simp only [Function.comp_def, name?_eq]
  rw [hkinds, hkinds, h]

/-- What was read looks like the elements of the tree `v`. -/
structure Reads (t v u : Tree) : Prop extends Fetched t u where
  twigs : (u.elementChildren t.size).map u.twig = (v.elementChildren root).map v.twig

namespace Reads

theorem allInline (h : Reads t v u) :
    allInline u (u.elementChildren t.size) = Splice.allInline v (v.elementChildren root) := by
  have hkinds : ∀ (t : Tree) (ids : List NodeId), ids.map t.kind = (ids.map t.twig).map Twig.kind := fun t ids => by
    rw [List.map_map]
    exact List.map_congr_left fun x _ => (kind_twigTo t t.size x).symm
  exact allInline_congr (by rw [hkinds, hkinds, h.twigs])

end Reads

section reading

variable (h : t.WellFormed) {source : String}

include h

/-- A fragment that cannot be read is left where it was read to. -/
theorem fetched_of_error (f : Field) {e : Markup.MarkupError} (he : Tree.ofText source 0 = .error e) :
    ∃ u, Fetched t u ∧ putMarkup f source t = (.error e, u) := by
  obtain ⟨v, -, hread⟩ := shifted_readInto t (.element fragmentName []) source 0
  have hfetched := fetched_readInto h source
  unfold putMarkup
  simp only [createElement, create_fst]
  generalize (t.create (.element fragmentName []) .none).2.readInto t.size source 0 = big at hread hfetched ⊢
  obtain ⟨result, u⟩ := big
  rw [ofText, hread] at he
  cases result with
  | error e' => cases he; exact ⟨u, hfetched, rfl⟩
  | ok _ => cases he

/-- The elements of a fragment that can be read are put in place. -/
theorem reads_of_ofText (f : Field) (hv : Tree.ofText source 0 = .ok v) :
    ∃ u, Reads t v u ∧ putMarkup f source t = (.ok (), putElements f (u.elementChildren t.size) u) := by
  obtain ⟨v', hshift, hread⟩ := shifted_readInto t (.element fragmentName []) source 0
  have hfetched := fetched_readInto h source
  have hvw := wellFormed_of_ofText hv
  unfold putMarkup
  simp only [createElement, create_fst]
  generalize (t.create (.element fragmentName []) .none).2.readInto t.size source 0 = big at hread hfetched hshift ⊢
  obtain ⟨result, u⟩ := big
  rw [ofText, hread] at hv
  cases result with
  | error e => cases hv
  | ok _ =>
    cases hv
    refine ⟨u, ⟨hfetched, ?_⟩, rfl⟩
    -- the container stands `t.size` places further on, and so do its children
    have hc := hshift.children root
    rw [show root + t.size = t.size from Nat.zero_add _] at hc
    have hinner : ∀ x ∈ v.children root, x ≠ root ∧ x < v.size := fun x hx =>
      ⟨fun he => hvw.not_within_of_parent (hvw.parent_of_mem hx) (he ▸ within_refl v x), hvw.lt_size_of_mem hx⟩
    have hel : (v.children root).filter (u.isElement ∘ (· + t.size)) = v.elementChildren root :=
      List.filter_congr fun x hx => isElement_congr (hshift.kind x (hinner x hx).1 (hinner x hx).2)
    rw [elementChildren, hc, List.filter_map, hel, List.map_map]
    refine List.map_congr_left fun x hx => ?_
    obtain ⟨hne, hlt⟩ := hinner x (List.mem_filter.mp hx).1
    exact hshift.twig hvw hfetched.beyond.wellFormed hne hlt

end reading

/-! ## Dressing -/

theorem formatting?_twig (h : t.WellFormed) (x : NodeId) :
    (t.twig x).formatting? = ((t.elementChildren x).find? (t.isNamed Word.runProperties)).map t.twig := by
  have hkind : ∀ c, (t.twig c).kind = t.kind c := kind_twigTo t t.size
  rw [h.twig_eq, Twig.formatting?, List.find?_map, elementChildren, List.find?_filter]
  refine congrArg (Option.map t.twig) (congrArg ((t.children x).find? ·) (funext fun c => ?_))
  rw [Function.comp, hkind, ← isNamed_eq, Bool.eq_iff_iff, decide_eq_true_eq]
  exact ⟨fun hc => ⟨isElement_of_isNamed hc, hc⟩, And.right⟩

/-- Whether a run has a formatting is told by its children. -/
theorem isNone_formatting? (h : t.WellFormed) (x : NodeId) :
    (t.twig x).formatting?.isNone = !(t.elementChildren x).any (t.isNamed Word.runProperties) := by
  rw [formatting?_twig h, Option.isNone_map, Bool.eq_iff_iff, Option.isNone_iff_eq_none, List.find?_eq_none]
  simp

/-- The runs have got the formatting `p` where they had none, and nothing else has changed. -/
structure Dresses (p : Twig) (runs : List NodeId) (t u : Tree) : Prop extends Relists (· ∈ runs) t u where
  stays : Stays t.size t u
  row : ∀ x ∈ runs, ∃ front, u.children x = front ++ t.children x ∧ (∀ a ∈ front, t.size ≤ a ∧ a < u.size) ∧
    front.map u.twig = if (t.twig x).formatting?.isNone then [p] else []

/-- One run is dressed with a copy of a node that looks like `p`. -/
theorem dresses_formatRun (h : t.WellFormed) {formatting run : NodeId} (hf : formatting ≠ root) (hrun : Hosts t run) :
    Dresses (t.twig formatting) [run] t (formatRun formatting t run) := by
  have hed := edited_formatRun (fenced_zero h) hf (Nat.zero_le run) hrun
  have hstay := stays_formatRun (Nat.le_refl t.size) formatting run
  unfold formatRun at hed hstay ⊢
  split at hed
  · next hany =>
    rw [if_pos hany]
    refine ⟨.refl h, .refl _ t, fun x hx => ⟨[], rfl, fun a ha => absurd ha List.not_mem_nil, ?_⟩⟩
    obtain rfl := List.mem_singleton.mp hx
    rw [isNone_formatting? h, hany]
    rfl
  · next hany =>
    rw [if_neg hany] at hstay ⊢
    have hcopy := deepCopy_spec h hf
    generalize t.deepCopy formatting = made at hcopy hed hstay ⊢
    obtain ⟨copy, u⟩ := made
    simp only at hcopy hed hstay ⊢
    have hu := hcopy.beyond.wellFormed
    have hmove : u.prependChild run copy = u.move (copy :: ·) run copy := rfl
    have hlists : ∀ q, (u.prependChild run copy).children q = if q = run then copy :: t.children run else u.children q := by
      intro q
      have hnone := hu.not_mem_children hcopy.parent
      rw [hmove, children_move (hcopy.movable h hrun) hu, filter_ne_self (hnone run), filter_ne_self (hnone q),
        hcopy.beyond.children_eq hrun.lt_size]
    have hput : Relists (· = run) u (u.prependChild run copy) := by
      refine ⟨hed.wellFormed, by rw [hmove, size_move], fun x _ => by rw [hmove, kind_move], fun x _ hx => ?_⟩
      rw [hlists, if_neg hx]
    have hsame : (u.prependChild run copy).twig copy = t.twig formatting := by
      rw [← hcopy.twig]
      refine hput.twig hu (by rw [hcopy.fst]; exact hcopy.lt_size) ?_
      rintro d hd rfl
      exact Nat.not_lt_of_le (hcopy.beyond.zone.within (Nat.le_of_eq hcopy.fst.symm) hd) hrun.lt_size
    refine ⟨((Relists.of_beyond hcopy.beyond).trans hput).mono fun x _ hx => ?_, hstay, fun x hx => ?_⟩
    · rw [hx]
      exact List.mem_singleton_self run
    · obtain rfl := List.mem_singleton.mp hx
      refine ⟨[copy], by rw [hlists, if_pos rfl]; rfl, fun a ha => ?_, ?_⟩
      · rw [List.mem_singleton.mp ha, hmove, size_move, hcopy.fst]
        exact ⟨Nat.le_refl _, hcopy.lt_size⟩
      · rw [isNone_formatting? h, Bool.eq_false_iff.mpr hany, List.map_singleton, hsame]
        rfl

namespace Dresses

variable {p : Twig} {runs more : List NodeId} {w : Tree}

theorem refl (h : t.WellFormed) (p : Twig) : Dresses p [] t t where
  toRelists := .refl h
  stays := .refl _ t
  row _ hx := absurd hx List.not_mem_nil

/-- Runs that are dressed stay so, and the others still look as bare as they did. -/
theorem trans (h : t.WellFormed) (hu : Dresses p runs t u) (hw : Dresses p more u w) (hruns : ∀ x ∈ runs, x < t.size)
    (hmore : ∀ x ∈ more, x < t.size ∧ x ∉ runs) : Dresses p (runs ++ more) t w where
  toRelists := (hu.toRelists.mono fun _ _ => List.mem_append_left more).trans_of hw.toRelists fun _ _ =>
    List.mem_append_right runs
  stays := hu.stays.trans ⟨hw.grows, fun x hx => hw.kind x (Nat.lt_of_lt_of_le hx hu.grows), fun x hx =>
    hw.stays.parent x (Nat.lt_of_lt_of_le hx hu.grows)⟩
  row x hx := by
    by_cases hold : x ∈ runs
    · obtain ⟨front, hc, hfront, htwigs⟩ := hu.row x hold
      have hxu := Nat.lt_of_lt_of_le (hruns x hold) hu.grows
      refine ⟨front, ?_, fun a ha => ⟨(hfront a ha).1, Nat.lt_of_lt_of_le (hfront a ha).2 hw.grows⟩, ?_⟩
      · rw [hw.children x hxu fun hm => (hmore x hm).2 hold, hc]
      · rw [← htwigs]
        refine hw.toRelists.twigs hu.wellFormed fun a ha => ⟨(hfront a ha).2, fun d hd hm => ?_⟩
        -- no older node is below a new one
        have hbefore := hu.stays.within h (hmore d hm).1 hd
        exact Nat.not_lt_of_le (hfront a ha).1 (h.lt_size_above (hmore d hm).1 hbefore)
    · have hm := (List.mem_append.mp hx).resolve_left hold
      obtain ⟨front, hc, hfront, htwigs⟩ := hw.row x hm
      have hsame := hu.children x (hmore x hm).1 hold
      refine ⟨front, by rw [hc, hsame], fun a ha => ⟨Nat.le_trans hu.grows (hfront a ha).1, (hfront a ha).2⟩, ?_⟩
      have hnamed : ∀ c ∈ t.children x, u.kind c = t.kind c := fun c hc => hu.kind c (h.lt_size_of_mem hc)
      have helements : u.elementChildren x = t.elementChildren x := by
        rw [elementChildren, hsame]
        exact List.filter_congr fun c hc => isElement_congr (hnamed c hc)
      have hany : (t.elementChildren x).any (u.isNamed Word.runProperties) = (t.elementChildren x).any (t.isNamed Word.runProperties) := by
        rw [Bool.eq_iff_iff, List.any_eq_true, List.any_eq_true]
        exact exists_congr fun c => and_congr_right fun hc => by rw [isNamed_congr (hnamed c (List.mem_filter.mp hc).1)]
      rw [htwigs, isNone_formatting? hu.wellFormed, isNone_formatting? h, helements, hany]

/-- A node in which the runs are dressed that are in it. -/
theorem twig (h : t.WellFormed) (hu : Dresses p runs t u) {x : NodeId} (hx : x < t.size)
    (hruns : ∀ d, t.Within x d → (d ∈ runs ↔ t.isNamed Word.run d = true)) : u.twig x = (t.twig x).dressed (some p) := by
  induction x using h.below_induction with
  | step x ih =>
    have hbelow : (t.children x).map u.twig = ((t.children x).map t.twig).map (Twig.dressed (some p)) := by
      rw [List.map_map]
      refine List.map_congr_left fun c hc => ih c hc (h.lt_size_of_mem hc) fun d hd => hruns d ?_
      exact within_trans (within_of_parent (h.parent_of_mem hc)) hd
    rw [hu.wellFormed.twig_eq, hu.kind x hx, h.twig_eq, Twig.dressed, Twig.dressedIn_eq, ← hbelow, ← h.twig_eq, ← isNamed_eq]
    by_cases hrun : x ∈ runs
    · obtain ⟨front, hc, -, htwigs⟩ := hu.row x hrun
      rw [hc, List.map_append, htwigs, (hruns x (within_refl t x)).mp hrun, Bool.true_and]
      rfl
    · have hno : t.isNamed Word.run x = false := Bool.eq_false_iff.mpr fun hn => hrun ((hruns x (within_refl t x)).mpr hn)
      rw [hu.children x hx hrun, hno]
      rfl

end Dresses

/-- Runs are dressed in turn with copies of a formatting that none of them stands in. -/
theorem dresses_formatRuns (h : t.WellFormed) {formatting : NodeId} (hne : formatting ≠ root) (hlt : formatting < t.size)
    {runs : List NodeId} (hnd : runs.Nodup) (hhosts : ∀ x ∈ runs, Hosts t x) (hapart : ∀ x ∈ runs, ¬ t.Within formatting x) :
    Dresses (t.twig formatting) runs t (runs.foldl (formatRun formatting) t) := by
  induction runs generalizing t with
  | nil => exact .refl h _
  | cons x runs ih =>
    rw [List.nodup_cons] at hnd
    have hone := dresses_formatRun h hne (hhosts x List.mem_cons_self)
    have hold : ∀ y ∈ x :: runs, y < t.size := fun y hy => (hhosts y hy).lt_size
    rw [List.foldl_cons]
    generalize formatRun formatting t x = u at hone ⊢
    have hsame : u.twig formatting = t.twig formatting := hone.toRelists.twig h hlt fun d hd hm =>
      hapart x List.mem_cons_self (List.mem_singleton.mp hm ▸ hd)
    have hrest := ih hone.wellFormed (Nat.lt_of_lt_of_le hlt hone.grows) hnd.2
      (fun y hy => ⟨Nat.lt_of_lt_of_le (hold y (List.mem_cons_of_mem x hy)) hone.grows,
        (hhosts y (List.mem_cons_of_mem x hy)).inner.imp_right fun hel =>
          (isElement_congr (hone.kind y (hold y (List.mem_cons_of_mem x hy)))).trans hel⟩)
      fun y hy hw => hapart y (List.mem_cons_of_mem x hy) (hone.stays.within h (hold y (List.mem_cons_of_mem x hy)) hw)
    rw [hsame] at hrest
    exact hone.trans h hrest (fun y hy => hold y (List.mem_singleton.mp hy ▸ List.mem_cons_self)) fun y hy =>
      ⟨hold y (List.mem_cons_of_mem x hy), fun hm => hnd.1 (List.mem_singleton.mp hm ▸ hy)⟩

/-- Siblings that stand apart from a run are dressed with its formatting, if it has one. -/
theorem dresses_inheritFormatting (h : t.WellFormed) {run container : NodeId} {ids : List NodeId} (hids : ids.Sublist (t.children container))
    (hapart : ∀ x ∈ ids, ∀ d, t.Within x d → ¬ t.Within run d) :
    Relists (fun d => ∃ x ∈ ids, t.Within x d) t (inheritFormatting t run ids) ∧
      ids.map (inheritFormatting t run ids).twig = ids.map fun x => (t.twig x).dressed (t.twig run).formatting? := by
  unfold inheritFormatting
  rw [formatting?_twig h]
  cases hfound : (t.elementChildren run).find? (t.isNamed Word.runProperties) with
  | none => exact ⟨.refl h, List.map_congr_left fun x _ => (Twig.dressed_none _).symm⟩
  | some formatting =>
    have hp := h.parent_of_mem (List.mem_filter.mp (List.mem_of_find?_eq_some hfound)).1
    have hne : formatting ≠ root := fun he => by rw [he, h.top] at hp; cases hp
    have hin : ∀ d ∈ ids.flatMap t.subtree, ∃ x ∈ ids, t.Within x d := fun d hd => by
      obtain ⟨x, hx, hdx⟩ := List.mem_flatMap.mp hd
      exact ⟨x, hx, h.mem_subtree.mp hdx⟩
    have hnd : (ids.flatMap t.subtree).Nodup := by
      have hall := h.nodup_descendants container
      rw [h.descendants_eq] at hall
      exact hall.sublist (hids.flatMap t.subtree)
    have hdress := dresses_formatRuns h hne (lt_size_of_parent hp) (hnd.filter (t.isNamed Word.run))
      (fun x hx => hosts_of_isElement (isElement_of_isNamed (List.mem_filter.mp hx).2)) fun d hd hw => by
        obtain ⟨x, hx, hxd⟩ := hin d (List.mem_filter.mp hd).1
        exact hapart x hx d hxd (within_trans (within_of_parent hp) hw)
    refine ⟨hdress.toRelists.mono fun d _ hd => hin d (List.mem_filter.mp hd).1, List.map_congr_left fun x hx => ?_⟩
    refine hdress.twig h (h.lt_size_of_mem (hids.subset hx)) fun d hd => ?_
    rw [List.mem_filter]
    exact ⟨And.right, fun hn => ⟨List.mem_flatMap.mpr ⟨x, hx, h.mem_subtree.mpr hd⟩, hn⟩⟩

end Splice

end MailMerge
