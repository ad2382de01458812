/-
  MailMerge.Proofs.Splice.Seated — where the run stands that displays a field's result.

  Before anything takes a field's place the run is looked up that displays the result. Where
  there is none a new run is made: in front of the field's end, or as the last node in a field
  that is one element. So there is one place in one child list that the result has, with or
  without a run (`Field.refilled`).

  Proved: looking up the place gives that child list the run and changes no other, and what the
  run stands in and its formatting are those of the place (`seats_locate`).
-/

import MailMerge.Proofs.Field.Renumbered
import MailMerge.Proofs.Splice.Dressed
import MailMerge.Proofs.Splice.Exact

namespace MailMerge

open MailMerge.Tree

/-! ## Child lists -/

/-- The list with `ids` in the place of `x`. -/
def exchange (x : NodeId) (ids l : List NodeId) : List NodeId := l.flatMap fun y => if y = x then ids else [y]

section exchange

variable {x : NodeId} {ids l before after : List NodeId}

theorem exchange_append (x : NodeId) (ids l l' : List NodeId) : exchange x ids (l ++ l') = exchange x ids l ++ exchange x ids l' :=
  List.flatMap_append

theorem exchange_of_not_mem (hx : x ∉ l) (ids : List NodeId) : exchange x ids l = l := by
  induction l with
  | nil => rfl
  | cons y l ih =>
    rw [List.mem_cons, not_or] at hx
    rw [exchange, List.flatMap_cons, if_neg (Ne.symm hx.1)]
    exact congrArg (y :: ·) (ih hx.2)

theorem exchange_cut (hb : x ∉ before) (ha : x ∉ after) (ids : List NodeId) :
    exchange x ids (before ++ x :: after) = before ++ ids ++ after := by
  have hcons : exchange x ids (x :: after) = ids ++ exchange x ids after := by
    rw [exchange, List.flatMap_cons, if_pos rfl]
    rfl
  rw [exchange_append, hcons, exchange_of_not_mem hb, exchange_of_not_mem ha, List.append_assoc]

theorem exchange_self (x : NodeId) (l : List NodeId) : exchange x [x] l = l := by
  induction l with
  | nil => rfl
  | cons y l ih =>
    have hone : (if y = x then [x] else [y]) = [y] := by
      split
      · next he => rw [he]
      · rfl
    rw [exchange, List.flatMap_cons, hone]
    exact congrArg (y :: ·) ih

theorem exchange_in_front {n : NodeId} (hn : x ≠ n) (hl : n ∉ l) (ids : List NodeId) :
    exchange n ids (exchange x ([n] ++ [x]) l) = exchange x (ids ++ [x]) l := by
  induction l with
  | nil => rfl
  | cons y l ih =>
    rw [List.mem_cons, not_or] at hl
    have hcons : ∀ ids, exchange x ids (y :: l) = (if y = x then ids else [y]) ++ exchange x ids l := fun _ => List.flatMap_cons
    rw [hcons, hcons, exchange_append, ih hl.2]
    congr 1
    split
    · have hnil : n ∉ ([] : List NodeId) := List.not_mem_nil
      exact exchange_cut hnil (fun hm => hn (List.mem_singleton.mp hm).symm) ids
    · exact exchange_of_not_mem (fun hm => hl.1 (List.mem_singleton.mp hm)) ids

theorem mem_exchange {y : NodeId} : y ∈ exchange x ids l ↔ y ∈ l ∧ y ≠ x ∨ x ∈ l ∧ y ∈ ids := by
  rw [exchange, List.mem_flatMap]
  constructor
  · rintro ⟨z, hz, hy⟩
    split at hy
    · next he => exact Or.inr ⟨he ▸ hz, hy⟩
    · next hne => exact Or.inl (List.mem_singleton.mp hy ▸ ⟨hz, hne⟩)
  · rintro (⟨hy, hne⟩ | ⟨hx, hy⟩)
    · exact ⟨y, hy, by rw [if_neg hne]; exact List.mem_singleton_self y⟩
    · exact ⟨x, hx, by rwa [if_pos rfl]⟩

end exchange

namespace Field

/-- The child list of `x` with `ids` where the field's result is displayed: in the place of the
    run that displays it, or where a new run would be. -/
def refilled (f : Field) (t : Tree) (ids : List NodeId) (x : NodeId) : List NodeId :=
  match f.run? t, f.shape with
  | some run, _ => exchange run ids (t.children x)
  | none, .complex => exchange f.last (ids ++ [f.last]) (t.children x)
  | none, .simple => if x = f.first then t.children x ++ ids else t.children x

/-- The child list of `c` when the result makes way for `ids` and the markers go. -/
def vacated (f : Field) (t : Tree) (ids : List NodeId) (c : NodeId) : List NodeId :=
  match f.shape with
  | .simple => exchange f.first (f.refilled t ids f.first) (t.children c)
  | .complex => (f.refilled t ids c).filter (· ∉ f.anchors)

/-- The formatting of the run that displays the result. -/
def formatting? (f : Field) (t : Tree) : Option Twig := (f.run? t).bind fun run => (t.twig run).formatting?

/-- The anchors are children of `c`, and a field that is one element is a field element. -/
structure Sits (f : Field) (t : Tree) (c : NodeId) : Prop where
  hosts : ∀ a ∈ f.anchors, Hosts t a
  parent : ∀ a ∈ f.anchors, t.parent a = some c
  simple : f.shape = .simple → f.anchors = [f.first] ∧ t.isNamed Word.simpleField f.first = true

variable {f : Field} {t u : Tree} {c : NodeId}

theorem sits_of_mem_fields (h : t.WellFormed) {r : NodeId} (hf : f ∈ t.fields r) (hc : t.parent f.first = some c) : f.Sits t c where
  hosts a ha := ((fenced_zero h).owned_field (fun _ _ => Nat.zero_le _) (Nat.zero_le _) hf a ha).2
  parent _ ha := ((placed_of_mem_fields hf).parent_anchor h ha).trans hc
  simple hs := (simple_of_mem_fields hf hs).2

theorem run?_eq_some (h : t.WellFormed) {run : NodeId} (hr : f.run? t = some run) :
    (f.shape = .complex ∧ run ∈ f.anchors) ∨ (f.shape = .simple ∧ t.Within f.first run ∧ run ≠ f.first ∧ t.isElement run = true) := by
  unfold run? at hr
  cases hs : f.shape with
  | complex =>
    rw [hs] at hr
    exact Or.inl ⟨rfl, Target.resultAnchor?_mem hr⟩
  | simple =>
    rw [hs] at hr
    obtain ⟨hw, hne, hel, -⟩ := h.findDescendant?_eq_some hr
    exact Or.inr ⟨rfl, hw, hne, hel⟩

theorem within_run (h : t.WellFormed) {run : NodeId} (hr : f.run? t = some run) : ∃ a ∈ f.anchors, t.Within a run := by
  rcases f.run?_eq_some h hr with ⟨-, hm⟩ | ⟨-, hw, -, -⟩
  · exact ⟨run, hm, within_refl t run⟩
  · exact ⟨f.first, f.first_mem_anchors, hw⟩

/-- What is a child stays one if it is not the run that displays the result. -/
theorem mem_refilled {x y : NodeId} (hy : y ∈ t.children x) (hr : f.run? t ≠ some y) (ids : List NodeId) : y ∈ f.refilled t ids x := by
  cases hrun : f.run? t with
  | some run =>
    rw [refilled, hrun]
    exact mem_exchange.mpr (Or.inl ⟨hy, fun he => hr (he ▸ hrun)⟩)
  | none =>
    rw [refilled, hrun]
    cases f.shape with
    | complex =>
      by_cases he : y = f.last
      · exact mem_exchange.mpr (Or.inr ⟨he ▸ hy, by rw [he]; simp⟩)
      · exact mem_exchange.mpr (Or.inl ⟨hy, he⟩)
    | simple =>
      simp only
      split
      · exact List.mem_append_left ids hy
      · exact hy

namespace Sits

variable (hf : f.Sits t c) (h : t.WellFormed)

include hf h

theorem not_within_anchor {a : NodeId} (ha : a ∈ f.anchors) : ¬ t.Within a c := h.not_within_of_parent (hf.parent a ha)

/-- Outside the anchors the result has a place only in the list that they stand in. -/
theorem refilled_outside {x : NodeId} (hx : f.shape = .complex → x ≠ c) (hout : ∀ a ∈ f.anchors, ¬ t.Within a x) (ids : List NodeId) :
    f.refilled t ids x = t.children x := by
  have hanchor : f.shape = .complex → ∀ a ∈ f.anchors, a ∉ t.children x := fun hs a ha hm =>
    hx hs (Option.some.inj ((h.parent_of_mem hm).symm.trans (hf.parent a ha)))
  cases hr : f.run? t with
  | some run =>
    rw [refilled, hr]
    refine exchange_of_not_mem (fun hm => ?_) ids
    rcases f.run?_eq_some h hr with ⟨hs, ha⟩ | ⟨-, hw, hne, -⟩
    · exact hanchor hs run ha hm
    · exact hout f.first f.first_mem_anchors (within_parent_of_ne hw hne (h.parent_of_mem hm))
  | none =>
    rw [refilled, hr]
    cases hs : f.shape with
    | complex => exact exchange_of_not_mem (hanchor hs f.last f.last_mem_anchors) _
    | simple =>
      refine if_neg ?_
      rintro rfl
      exact hout f.first f.first_mem_anchors (within_refl t f.first)

/-- Where the run is, or the new one that was made, other nodes can take its place. -/
theorem exchange_refilled {run : NodeId} (hrun : run = (f.run? t).getD t.size) (ids : List NodeId) (x : NodeId) :
    exchange run ids (f.refilled t [run] x) = f.refilled t ids x := by
  have hnew : t.size ∉ t.children x := fun hm => Nat.lt_irrefl _ (h.lt_size_of_mem hm)
  unfold refilled
  cases hr : f.run? t with
  | some r =>
    rw [hr, Option.getD_some] at hrun
    rw [hrun]
    simp only
    rw [exchange_self]
  | none =>
    rw [hr, Option.getD_none] at hrun
    rw [hrun]
    cases f.shape with
    | complex =>
      exact exchange_in_front (Nat.ne_of_lt (lt_size_of_parent (hf.parent f.last f.last_mem_anchors))) hnew ids
    | simple =>
      simp only
      split
      · rw [exchange_cut hnew List.not_mem_nil, List.append_nil]
      · exact exchange_of_not_mem hnew ids

/-! ### In a tree that has grown -/

variable (hu : Beyond t.size t u)

include hu

theorem beyond : f.Sits u c where
  hosts a ha := (hu.edited (fenced_zero h) fun _ _ => Nat.zero_le _).hosts (hf.hosts a ha)
  parent a ha := (hu.parent_eq (hf.hosts a ha).lt_size).trans (hf.parent a ha)
  simple hs := ⟨(hf.simple hs).1,
    (isNamed_congr (hu.kind_eq (hf.hosts f.first f.first_mem_anchors).lt_size) _).trans (hf.simple hs).2⟩

variable (hmarker : f.marker < t.size)

include hmarker

theorem run?_beyond : f.run? u = f.run? t := by
  have hren := hu.renumbered h
  generalize hρ : movedOn t.size (u.size - t.size) = ρ at hren
  have hold : ∀ x < t.size, ρ x = x := fun x hx => by rw [← hρ, movedOn_of_lt hx]
  have hfirst := hold f.first (hf.hosts f.first f.first_mem_anchors).lt_size
  have hsame : f.renumber ρ = f := by
    have hothers : f.others.map ρ = f.others := by
      rw [← hρ]
      exact map_movedOn fun x hx => (hf.hosts x (List.mem_cons_of_mem _ hx)).lt_size
    rw [renumber, hold f.marker hmarker, hfirst, hothers]
  have hrun : f.run? u = (f.run? t).map ρ := by
    unfold run?
    cases f.shape with
    | simple =>
      have hfound := hren.findDescendant? h f.first Word.run
      rwa [hfirst] at hfound
    | complex =>
      have hfound := hren.resultAnchor? h f
      rwa [hsame] at hfound
  rw [hrun]
  cases hr : f.run? t with
  | none => rfl
  | some run =>
    obtain ⟨a, ha, hw⟩ := f.within_run h hr
    exact congrArg some (hold run (Relists.lt_size_of_within (hf.hosts a ha).lt_size hw))

theorem refilled_beyond {x : NodeId} (hx : x < t.size) (ids : List NodeId) : f.refilled u ids x = f.refilled t ids x := by
  unfold refilled
  rw [hf.run?_beyond h hu hmarker, hu.children_eq hx]

theorem vacated_beyond (ids : List NodeId) : f.vacated u ids c = f.vacated t ids c := by
  have hfirst := (hf.hosts f.first f.first_mem_anchors).lt_size
  have hclt := h.parent_lt_size (hf.parent f.first f.first_mem_anchors)
  unfold vacated
  rw [hf.refilled_beyond h hu hmarker hfirst, hf.refilled_beyond h hu hmarker hclt, hu.children_eq hclt]

theorem formatting?_beyond : f.formatting? u = f.formatting? t := by
  unfold formatting?
  rw [hf.run?_beyond h hu hmarker]
  cases hr : f.run? t with
  | none => rfl
  | some run =>
    obtain ⟨a, ha, hw⟩ := f.within_run h hr
    have hlt := Relists.lt_size_of_within (hf.hosts a ha).lt_size hw
    have hsame := (Relists.of_beyond hu : Relists (fun _ => False) t u).twig h hlt fun _ _ => id
    rw [Option.bind_some, Option.bind_some, hsame]

end Sits

end Field

namespace Tree

variable {t u : Tree}

/-- Only new nodes are moved and changed. -/
theorem zone_new (h : t.WellFormed) : Zone (fun x => t.size ≤ x) (fun _ => True) t :=
  ⟨h, fun _ => id, fun _ _ hc hp => absurd (h.parent_lt_size hc) (Nat.not_lt_of_le hp), fun _ _ _ _ => trivial, fun _ _ => trivial⟩

/-- What stands around older nodes stays. -/
theorem Edited.findAncestor? (hed : Edited (fun x => t.size ≤ x) (fun _ => True) t u) (h : t.WellFormed) {x : NodeId} (hx : x < t.size)
    (name : String) : u.findAncestor? x name = t.findAncestor? x name := by
  induction x using h.grounded.induction with
  | _ x ih =>
    have hp := hed.parent x (Nat.not_le_of_lt hx)
    cases hq : t.parent x with
    | none => rw [findAncestor?_of_parent_none hq, findAncestor?_of_parent_none (hp.trans hq)]
    | some q =>
      have hlt := h.parent_lt_size hq
      rw [h.findAncestor?_of_parent hq, hed.wellFormed.findAncestor?_of_parent (hp.trans hq), ih q hq hlt,
        isNamed_congr (hed.kind q (Nat.not_le_of_lt hlt))]

end Tree

/-! ## Looking up the place -/

namespace Target

theorem locateRun_eq (t : Tree) (f : Field) : locateRun t f =
    match f.run? t, f.shape with
    | some run, _ => (run, t)
    | none, .simple => addElement t f.first Word.run
    | none, .complex => (t.size, (t.create (.element Word.run []) .none).2.insertBefore f.last t.size) := by
  unfold locateRun Field.display? Field.run?
  cases hs : f.shape with
  | simple =>
    simp only
    cases t.findDescendant? f.first Word.run <;> rfl
  | complex =>
    simp only
    cases f.resultAnchor? t <;> rfl

/-- There is a run in the field's place, and no older node has got another child. -/
structure Seats (f : Field) (t : Tree) (run : NodeId) (u : Tree) : Prop where
  edited : Edited (fun x => t.size ≤ x) (fun _ => True) t u
  run_eq : run = (f.run? t).getD t.size
  hosts : Hosts u run
  home : ∃ p, u.parent run = some p
  children : ∀ x < t.size, f.run? t ≠ some x → u.children x = f.refilled t [run] x
  above : u.findAncestor? run Word.paragraph = t.findAncestor? ((f.run? t).getD f.last) Word.paragraph
  formatting : (u.twig run).formatting? = f.formatting? t

variable {t : Tree} {f : Field} {c : NodeId}

theorem formatting?_of_childless {u : Tree} (hu : u.WellFormed) {x : NodeId} (hx : u.children x = []) : (u.twig x).formatting? = none := by
  rw [hu.twig_eq, hx]
  rfl

section made

variable (h : t.WellFormed) (hf : f.Sits t c) (hr : f.run? t = none)

include h hf hr

/-- In a field that is one element a new run is the last node. -/
theorem seats_appendChild (hs : f.shape = .simple) :
    Seats f t t.size ((t.create (.element Word.run []) .none).2.appendChild f.first t.size) := by
  obtain ⟨hanchors, hnamed⟩ := hf.simple hs
  have hfirst := hf.hosts f.first f.first_mem_anchors
  have hgets := h.gets_last hfirst (.element Word.run []) .none
  have hed := (zone_new h).createBelow trivial hfirst (.element Word.run []) .none
  generalize (t.create (.element Word.run []) .none).2.appendChild f.first t.size = u at hgets hed ⊢
  have hu := hed.wellFormed
  have hp : u.parent t.size = some f.first := hu.parent_of_mem (by rw [hgets.children]; simp)
  refine ⟨hed, by rw [hr]; rfl, hosts_of_isElement (isElement_of_kind hgets.kind), ⟨_, hp⟩, fun x hx _ => ?_, ?_, ?_⟩
  · rw [Field.refilled, hr, hs]
    simp only
    split
    · next he => rw [he]; exact hgets.children
    · next hne => exact hgets.relists.children x hx hne
  · have hlasteq : f.last = f.first := List.mem_singleton.mp (hanchors ▸ f.last_mem_anchors)
    have hno : u.isNamed Word.paragraph f.first = false := by
      rw [isNamed_congr (hgets.relists.kind f.first hfirst.lt_size)]
      exact not_isNamed_of_isNamed hnamed (by decide)
    rw [hu.findAncestor?_of_parent hp, hno, hr, Option.getD_none, hlasteq]
    exact hed.findAncestor? h hfirst.lt_size _
  · rw [Field.formatting?, hr, formatting?_of_childless hu hgets.childless]
    rfl

/-- And otherwise it stands in front of the field's end. -/
theorem seats_insertBefore (hs : f.shape = .complex) :
    Seats f t t.size ((t.create (.element Word.run []) .none).2.insertBefore f.last t.size) := by
  have hlast := hf.parent f.last f.last_mem_anchors
  have hlastlt := lt_size_of_parent hlast
  obtain ⟨before, after, hc⟩ := List.append_of_mem (h.mem_of_parent hlast)
  obtain ⟨hb, ha⟩ := h.children_cut hc
  have hgets := h.gets_before hc (.element Word.run []) .none
  have hmade := (zone_new h).create (.element Word.run []) .none
  have hed : Edited (fun x => t.size ≤ x) (fun _ => True) t _ := hmade.trans
    (hmade.zone.insertBefore (fun _ _ => trivial) (Nat.le_refl t.size) (h.joinable_created (.element Word.run []) .none f.last))
  generalize (t.create (.element Word.run []) .none).2.insertBefore f.last t.size = u at hgets hed ⊢
  have hu := hed.wellFormed
  have hp : u.parent t.size = some c := hu.parent_of_mem (by rw [hgets.children]; simp)
  refine ⟨hed, by rw [hr]; rfl, hosts_of_isElement (isElement_of_kind hgets.kind), ⟨_, hp⟩, fun x hx _ => ?_, ?_, ?_⟩
  · rw [Field.refilled, hr, hs]
    simp only
    by_cases hxc : x = c
    · rw [hxc, hgets.children, hc, exchange_cut hb ha]
      simp
    · rw [hgets.relists.children x hx hxc, exchange_of_not_mem]
      exact fun hm => hxc (Option.some.inj ((h.parent_of_mem hm).symm.trans hlast))
  · have hsibling : u.parent t.size = u.parent f.last := by
      rw [hp, hed.parent f.last (Nat.not_le_of_lt hlastlt), hlast]
    rw [hu.findAncestor?_of_siblings hsibling, hr, Option.getD_none]
    exact hed.findAncestor? h hlastlt _
  · rw [Field.formatting?, hr, formatting?_of_childless hu hgets.childless]
    rfl

end made

theorem seats_locateRun (h : t.WellFormed) (hf : f.Sits t c) : Seats f t (locateRun t f).1 (locateRun t f).2 := by
  rw [locateRun_eq]
  cases hr : f.run? t with
  | none =>
    cases hs : f.shape with
    | simple => exact seats_appendChild h hf hr hs
    | complex => exact seats_insertBefore h hf hr hs
  | some run =>
    have hspot : Hosts t run ∧ ∃ p, t.parent run = some p := by
      rcases f.run?_eq_some h hr with ⟨-, hm⟩ | ⟨-, hw, hne, hel⟩
      · exact ⟨hf.hosts run hm, c, hf.parent run hm⟩
      · obtain ⟨p, hp⟩ := Option.ne_none_iff_exists'.mp fun hnone => hne (within_of_parent_none hnone hw).symm
        exact ⟨hosts_of_isElement hel, p, hp⟩
    refine ⟨.refl (zone_new h), by rw [hr]; rfl, hspot.1, hspot.2, fun x _ _ => ?_, by rw [hr]; rfl, ?_⟩
    · rw [Field.refilled, hr]
      exact (exchange_self run _).symm
    · rw [Field.formatting?, hr]
      rfl

/-- A text element that is added to the run is no formatting. -/
theorem Seats.addText {run : NodeId} {u : Tree} (hs : Seats f t run u) : Seats f t run (addElement u run Word.text).2 := by
  have hu := hs.edited.wellFormed
  have hgets := hu.gets_last hs.hosts (.element Word.text []) .none
  have hone := (zone_new hu).createBelow trivial hs.hosts (.element Word.text []) .none
  have hed := hs.edited.zone.createBelow trivial hs.hosts (.element Word.text []) .none
  show Seats f t run ((u.create (.element Word.text []) .none).2.appendChild run u.size)
  generalize (u.create (.element Word.text []) .none).2.appendChild run u.size = v at hgets hone hed ⊢
  have hv := hed.wellFormed
  have hlt := hs.hosts.lt_size
  refine ⟨hs.edited.trans hed, hs.run_eq, hone.hosts hs.hosts, ?_, fun x hx hr => ?_, ?_, ?_⟩
  · rw [hone.parent run (Nat.not_le_of_lt hlt)]
    exact hs.home
  · rw [← hs.children x hx hr]
    refine hgets.relists.children x (Nat.lt_of_lt_of_le hx hs.edited.grows) ?_
    rintro rfl
    have hrun := hs.run_eq
    cases hr' : f.run? t with
    | some r => rw [hr', Option.getD_some] at hrun; exact hr (hrun ▸ hr')
    | none => rw [hr', Option.getD_none] at hrun; exact Nat.lt_irrefl _ (hrun ▸ hx)
  · rw [hone.findAncestor? hu hlt, hs.above]
  · have hold := hgets.relists.twigs_children hu fun c (hc : c ∈ u.children run) => hc
    have hnew : (v.twig u.size).kind.isNamed Word.runProperties = false := by
      rw [hv.twig_eq, hgets.kind]
      rfl
    rw [← hs.formatting, hv.twig_eq, hu.twig_eq, Twig.formatting?, Twig.formatting?, hgets.children, List.map_append, hold,
      List.find?_append]
    simp [hnew]

/-- Outside a node above the place every child list is what it was. -/
theorem Seats.children_outside (h : t.WellFormed) (hf : f.Sits t c) {run : NodeId} {u : Tree} (hs : Seats f t run u) {a : NodeId}
    {name : String} (ha : t.findAncestor? ((f.run? t).getD f.last) name = some a) {x : NodeId} (hx : x < t.size)
    (hout : ¬ t.Within a x) : u.children x = t.children x := by
  obtain ⟨-, hw, hne, -⟩ := h.findAncestor?_eq_some ha
  have hrun := hs.run_eq
  cases hr : f.run? t with
  | some r =>
    rw [hr, Option.getD_some] at hw hrun
    rw [hs.children x hx fun he => hout (Option.some.inj (hr.symm.trans he) ▸ hw), Field.refilled, hr, hrun]
    exact exchange_self r _
  | none =>
    rw [hr, Option.getD_none] at hw hne
    have hno : f.run? t ≠ some x := fun he => by rw [hr] at he; cases he
    rw [hs.children x hx hno, Field.refilled, hr]
    cases hshape : f.shape with
    | simple =>
      have hlast : f.last = f.first := List.mem_singleton.mp ((hf.simple hshape).1 ▸ f.last_mem_anchors)
      refine if_neg ?_
      rintro rfl
      exact hout (hlast ▸ hw)
    | complex => exact exchange_of_not_mem (fun hm => hout (within_parent_of_ne hw (Ne.symm hne) (h.parent_of_mem hm))) _

theorem seats_locate (h : t.WellFormed) (hf : f.Sits t c) : Seats f t (locate t f).1.run (locate t f).2 := by
  have hrun := seats_locateRun h hf
  unfold locate
  generalize locateRun t f = found at hrun ⊢
  obtain ⟨run, u⟩ := found
  simp only at hrun ⊢
  split
  · exact hrun
  · exact hrun.addText

end Target

end MailMerge
