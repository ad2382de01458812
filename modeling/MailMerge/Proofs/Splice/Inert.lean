/-
  MailMerge.Proofs.Splice.Inert — a text put in a field's place makes no other field.

  What is made for a text are runs, text elements, breaks and character data. None of these
  carries an instruction or marks a field, and none comes to stand in an instruction text as
  long as the places where something can be added are in none (`Field.Places`): the runs in
  the field, its anchors, and what its elements stand in.

  Proved: of the nodes that are made for a text, those that stand in the tree are inert
  (`inert_putText`), and inert nodes are not live (`Inert.not_live`).
-/

import MailMerge.Proofs.Outline.Idle
import MailMerge.Proofs.Splice.Lifts
import MailMerge.Proofs.Splice.Lines

namespace MailMerge

open MailMerge.Tree

namespace Kind

/-- An element that carries an instruction or a part of one, or that marks a field. -/
def carries (k : Kind) : Bool :=
  k.isNamed Word.simpleField || k.isNamed Word.instructionText || k.isNamed Word.fieldChar

theorem carries_of_name? {t u : Tree} {x y : NodeId} (h : u.name? y = t.name? x) : (u.kind y).carries = (t.kind x).carries := by
  simp only [carries, ← isNamed_eq]
  simp only [Tree.isNamed, h]

end Kind

namespace Tree

theorem carries_kind (t : Tree) (x : NodeId) : (t.kind x).carries =
    (t.isNamed Word.simpleField x || t.isNamed Word.instructionText x || t.isNamed Word.fieldChar x) := by
  rw [Kind.carries, isNamed_eq, isNamed_eq, isNamed_eq]

theorem carries_of_isMarker {t : Tree} {type : MarkerType} {x : NodeId} (h : t.isMarker type x = true) : (t.kind x).carries = true := by
  rw [isMarker, Bool.and_eq_true] at h
  rw [carries_kind, h.1, Bool.or_true]

theorem carries_of_opensField {t : Tree} {x : NodeId} (h : t.opensField x = true) : (t.kind x).carries = true := by
  rcases (Bool.or_eq_true _ _).mp h with hs | hm
  · rw [carries_kind, hs]
    rfl
  · exact carries_of_isMarker hm

theorem carries_of_instruction {t : Tree} {x : NodeId} (h : t.isNamed Word.instructionText x = true) : (t.kind x).carries = true := by
  rw [carries_kind, h, Bool.or_true]
  rfl

/-- The nodes from `m` on that stand within `z` carry nothing, and where one of them stands in
    an earlier node, that is a place of `Q`. -/
structure Inert (Q : NodeId → Prop) (m z : NodeId) (u : Tree) : Prop where
  kind : ∀ y, m ≤ y → u.Within z y → (u.kind y).carries = false
  place : ∀ y p, m ≤ y → p < m → u.parent y = some p → Q p

variable {Q : NodeId → Prop} {m z : NodeId} {t u : Tree}

/-- As long as no node has another parent, nothing new stands anywhere. -/
theorem inert_of_parents (hz : z < t.size) (hp : ∀ y, u.parent y = t.parent y) : Inert Q t.size z u where
  kind y hy hw := by
    rcases within_iff.mp hw with rfl | ⟨p, hyp, -⟩
    · exact absurd hz (Nat.not_lt_of_le hy)
    · rw [hp] at hyp
      exact absurd (lt_size_of_parent hyp) (Nat.not_lt_of_le hy)
  place y p hy _ hyp := absurd hy (Nat.not_le_of_lt (lt_size_of_parent ((hp y).symm.trans hyp)))

/-- Nodes that carry nothing, in places that are in no instruction text, are not live. -/
theorem Inert.not_live (h : Inert Q m z u) (hz : z < m)
    (hQ : ∀ p, Q p → ∀ a, u.Within a p → u.isNamed Word.instructionText a = false) {r : Registry} {y : NodeId} (hy : m ≤ y)
    (hw : u.Within z y) : ¬ u.Live r y := by
  have hnot : ∀ {x : NodeId}, m ≤ x → u.Within z x → u.isNamed Word.simpleField x = false ∧ u.isNamed Word.instructionText x = false :=
    fun hx hzx => by
      have hk := h.kind _ hx hzx
      rw [Kind.carries, Bool.or_eq_false_iff, Bool.or_eq_false_iff] at hk
      rw [isNamed_eq, isNamed_eq]
      exact hk.1
  have hup : ∀ {a x : NodeId}, u.Within a x → m ≤ x → u.Within z x → u.isNamed Word.instructionText a = false := by
    intro a x hax
    induction hax with
    | refl => exact fun hx hzx => (hnot hx hzx).2
    | @tail q x haq hq ih =>
      intro hx hzx
      by_cases hqm : m ≤ q
      · exact ih hqm (within_parent_of_ne hzx (fun he => Nat.not_lt_of_le hx (he ▸ hz)) hq)
      · exact hQ q (h.place x q hx (Nat.lt_of_not_le hqm) hq) a haq
  intro hlive
  cases hlive with
  | element hn =>
    rw [(hnot hy hw).1] at hn
    cases hn
  | text hn hay =>
    rw [hup hay hy hw] at hn
    cases hn

/-- A step that makes no nodes: each new one stays, leaves, or moves to a place of `Q`. -/
theorem Inert.step {v : Tree} (h : Inert Q m z u) (hk : ∀ y, v.kind y = u.kind y) (hw : ∀ y, v.Within z y → u.Within z y)
    (hp : ∀ y p, m ≤ y → p < m → v.parent y = some p → u.parent y = some p ∨ Q p) : Inert Q m z v where
  kind y hy hzy := by rw [hk]; exact h.kind y hy (hw y hzy)
  place y p hy hlt hyp := (hp y p hy hlt hyp).elim (h.place y p hy hlt) id

theorem within_of_parents {t u : Tree} (hp : ∀ y p, u.parent y = some p → t.Within p y) {a y : NodeId} (hw : u.Within a y) :
    t.Within a y := by
  induction hw with
  | refl => exact within_refl t a
  | tail _ hq ih => exact within_trans ih (hp _ _ hq)

theorem Inert.detachAll (h : Inert Q m z u) (ids : List NodeId) : Inert Q m z (u.detachAll ids) := by
  have hp : ∀ y p, (u.detachAll ids).parent y = some p → u.parent y = some p := fun y p hyp => by
    rw [parent_detachAll] at hyp
    split at hyp
    · cases hyp
    · exact hyp
  exact h.step (fun y => kind_detachAll u ids y) (fun _ => within_of_parents fun y p hyp => within_of_parent (hp y p hyp))
    fun y p _ _ hyp => Or.inl (hp y p hyp)

theorem Inert.unwrap (h : Inert Q m z u) (hu : u.WellFormed) {id : NodeId} (hid : ∀ p, u.parent id = some p → Q p) :
    Inert Q m z (u.unwrap id) := by
  have hp : ∀ y p, (u.unwrap id).parent y = some p → u.parent y = some p ∨ u.parent y = some id ∧ u.parent id = some p := by
    intro y p hyp
    rw [hu.parent_unwrap] at hyp
    split at hyp
    · cases hyp
    · split at hyp
      · next hy =>
        cases hq : u.parent id with
        | none =>
          rw [hq] at hyp
          exact Or.inl (hy.trans hyp)
        | some q =>
          rw [hq] at hyp
          exact Or.inr ⟨hy, hyp⟩
      · exact Or.inl hyp
  refine h.step (fun y => by rw [Tree.unwrap, kind_detach, kind_insertAllAfter]) (fun _ => within_of_parents fun y p hyp => ?_)
    fun y p _ _ hyp => (hp y p hyp).imp_right fun hyp => hid p hyp.2
  rcases hp y p hyp with hyp | ⟨hy, hyp⟩
  · exact within_of_parent hyp
  · exact within_trans (within_of_parent hyp) (within_of_parent hy)

/-- A new element in a place of `Q`, or in a node that is new itself. -/
theorem Inert.created {v : Tree} (h : Inert Q m z u) (hu : u.WellFormed) {p : NodeId} {k : Kind}
    (hkind : ∀ y, v.kind y = if y = u.size then k else u.kind y)
    (hparent : ∀ y, v.parent y = if y = u.size then some p else u.parent y) (hk : k.carries = false) (hQ : p < m → Q p) :
    Inert Q m z v := by
  have hw : ∀ {y}, v.Within z y → y = u.size ∨ u.Within z y := by
    intro y hzy
    induction hzy with
    | refl => exact Or.inr (within_refl u z)
    | @tail q y _ hq ih =>
      rw [hparent] at hq
      split at hq
      · next he => exact Or.inl he
      · rcases ih with rfl | ih
        · exact absurd (hu.parent_lt_size hq) (Nat.lt_irrefl _)
        · exact Or.inr (within_parent ih hq)
  refine ⟨fun y hy hzy => ?_, fun y q hy hq hyq => ?_⟩
  · rw [hkind]
    split
    · exact hk
    · next hne => exact h.kind y hy ((hw hzy).resolve_left hne)
  · rw [hparent] at hyq
    split at hyq
    · cases hyq
      exact hQ hq
    · exact h.place y q hy hq hyq

theorem Inert.createBelow (h : Inert Q m z u) (hu : u.WellFormed) {p : NodeId} (hp : Hosts u p) {k : Kind}
    (hk : k.carries = false) (hQ : p < m → Q p) : Inert Q m z ((u.create k .none).2.appendChild p u.size) :=
  h.created hu (kind_createBelow u p k .none) (hu.parent_createBelow hp k .none) hk hQ

/-- Nodes that carry nothing are put behind a child of a place of `Q`, or of a new node. -/
theorem Inert.follows {v : Tree} (h : Inert Q m z u) (hu : u.WellFormed) (hm : m ≤ u.size) (hz : z < m) {r anchor : NodeId}
    {before ids after : List NodeId} (hc : u.children r = before ++ anchor :: after)
    (hv : Splice.Follows u r anchor before ids after v)
    (hids : ∀ x ∈ ids, (v.twig x).has Kind.carries = false) (hQ : r < m → Q r) : Inert Q m z v := by
  have hchildren : ∀ {q y}, q < u.size → v.parent y = some q → u.parent y = some q ∨ q = r ∧ y ∈ ids := by
    intro q y hq hy
    have hmem := hv.relists.wellFormed.mem_of_parent hy
    by_cases hqr : q = r
    · subst hqr
      rw [hv.children] at hmem
      simp only [List.mem_append, List.mem_cons] at hmem
      rcases hmem with (hmem | hmem | hmem) | hmem
      · exact Or.inl (hu.parent_of_mem (by rw [hc]; simp [hmem]))
      · exact Or.inl (hu.parent_of_mem (by rw [hc]; simp [hmem]))
      · exact Or.inr ⟨rfl, hmem⟩
      · exact Or.inl (hu.parent_of_mem (by rw [hc]; simp [hmem]))
    · rw [hv.relists.children q hq hqr] at hmem
      exact Or.inl (hu.parent_of_mem hmem)
  have hw : ∀ {y}, v.Within z y → (u.Within z y ∧ y < u.size) ∨ ∃ c ∈ ids, v.Within c y := by
    intro y hzy
    induction hzy with
    | refl => exact Or.inl ⟨within_refl u z, Nat.lt_of_lt_of_le hz hm⟩
    | @tail q y _ hq ih =>
      rcases ih with ⟨hzq, hlt⟩ | ⟨c, hcm, hcq⟩
      · rcases hchildren hlt hq with hq | ⟨-, hy⟩
        · exact Or.inl ⟨within_parent hzq hq, lt_size_of_parent hq⟩
        · exact Or.inr ⟨y, hy, within_refl v y⟩
      · exact Or.inr ⟨c, hcm, within_parent hcq hq⟩
  refine ⟨fun y hy hzy => ?_, fun y p hy hp hyp => ?_⟩
  · rcases hw hzy with ⟨hzy, hlt⟩ | ⟨c, hcm, hcy⟩
    · rw [hv.relists.kind y hlt]
      exact h.kind y hy hzy
    · exact (hv.relists.wellFormed.twig_has _ c).mp (hids c hcm) y hcy
  · rcases hchildren (Nat.lt_of_lt_of_le hp hm) hyp with hyp | ⟨rfl, -⟩
    · exact h.place y p hy hp hyp
    · exact hQ hp

/-- Edits that moved no older node put none of them below a new one. -/
theorem Stays.within (h : Stays t.size t u) (ht : t.WellFormed) {a x : NodeId} (hx : x < t.size) (hw : u.Within a x) :
    t.Within a x := by
  induction hw with
  | refl => exact within_refl t a
  | @tail q x _ hq ih =>
    have hq := h.parent x hx q hq
    exact within_parent (ih (ht.parent_lt_size hq)) hq

theorem WellFormed.lt_size_above (h : t.WellFormed) {a x : NodeId} (hx : x < t.size) (hw : t.Within a x) : a < t.size := by
  by_cases he : x = a
  · exact he ▸ hx
  · obtain ⟨c, hc, -⟩ := exists_child_of_within hw he
    exact h.parent_lt_size hc

/-- Nor did they make one live. -/
theorem Stays.live {r : Registry} (h : Stays t.size t u) (ht : t.WellFormed) {x : NodeId} (hx : x < t.size) (hl : u.Live r x) : t.Live r x := by
  refine hl.of_kinds fun a ha => ?_
  have hw := h.within ht hx ha
  exact ⟨hw, h.kind a (ht.lt_size_above hx hw)⟩

end Tree

/-! ## Places for a text -/

/-- All that something may be added to when a text is put in the field's place. -/
structure Field.Places (t : Tree) (f : Field) (Q : NodeId → Prop) : Prop where
  anchor : ∀ a ∈ f.anchors, Q a
  run : ∀ a ∈ f.anchors, ∀ x, t.Within a x → t.isNamed Word.run x = true → Q x
  above : ∀ a ∈ f.anchors, ∀ x p, t.Within a x → t.isElement x = true → t.parent x = some p → Q p

namespace Target

variable {Q : NodeId → Prop} {z : NodeId} {t : Tree} (h : t.WellFormed) (hz : z < t.size) {f : Field}
  (hf : f.Owned (fun x => 0 ≤ x) t) (hp : f.Places t Q)

include h hz hf hp

/-- The run is a new one, or one of the field. -/
theorem inert_locateRun : Inert Q t.size z (locateRun t f).2 ∧
    ((locateRun t f).1 < t.size → (locateRun t f).2 = t ∧ (∃ a ∈ f.anchors, t.Within a (locateRun t f).1) ∧ Q (locateRun t f).1) := by
  have hlast := hf f.last f.last_mem_anchors
  unfold locateRun
  cases hd : f.display? t with
  | none =>
    refine ⟨?_, fun hlt => absurd hlt (Nat.lt_irrefl _)⟩
    have hcreated := parent_create t (.element Word.run []) .none
    simp only [createElement, create_fst, insertBefore]
    cases hq : t.parent f.last with
    | none =>
      rw [insertBeside_of_parent_none _ ((hcreated f.last).trans hq)]
      exact inert_of_parents hz hcreated
    | some q =>
      have hlt := h.parent_lt_size hq
      have hel : t.isElement f.last = true := hlast.2.inner.resolve_left fun he => by rw [he, h.top] at hq; cases hq
      have hm := h.movable_created (.element Word.run []) .none hlt (h.inner q _ hq)
      rw [((sameLinks_create t _ _).wellFormed h).insertBeside_eq _ (Nat.ne_of_lt hlast.2.lt_size) ((hcreated f.last).trans hq)]
      refine (inert_of_parents hz fun _ => rfl).created (p := q) h (fun y => ?_) (fun y => ?_) (by decide : Kind.carries (.element Word.run []) = false) fun _ =>
        hp.above _ f.last_mem_anchors _ q (within_refl t _) hel hq
      · rw [kind_move, kind_create]
      · rw [parent_move hm, hcreated]
  | some id =>
    cases hs : f.shape with
    | complex =>
      rw [Field.display?, hs] at hd
      have hid := resultAnchor?_mem hd
      exact ⟨inert_of_parents hz fun _ => rfl, fun _ => ⟨rfl, ⟨id, hid, within_refl t id⟩, hp.anchor id hid⟩⟩
    | simple =>
      rw [Field.display?, hs] at hd
      cases hd
      have hfirst := f.first_mem_anchors
      simp only
      cases hr : t.findDescendant? f.first Word.run with
      | some run =>
        obtain ⟨hw, -, -, hn⟩ := h.findDescendant?_eq_some hr
        exact ⟨inert_of_parents hz fun _ => rfl, fun _ => ⟨rfl, ⟨f.first, hfirst, hw⟩, hp.run _ hfirst run hw hn⟩⟩
      | none =>
        refine ⟨(inert_of_parents hz fun _ => rfl).createBelow h (hf _ hfirst).2 (by decide) fun _ => hp.anchor _ hfirst, fun hlt => ?_⟩
        exact absurd hlt (Nat.lt_irrefl _)

/-- The text element is a child, and its place is one where something may be added. -/
theorem inert_locate : Inert Q t.size z (locate t f).2 ∧ ∃ r before after,
    (locate t f).2.children r = before ++ (locate t f).1.text :: after ∧ (r < t.size → Q r) := by
  obtain ⟨hin, hrun⟩ := inert_locateRun h hz hf hp
  obtain ⟨hedit, hready⟩ := locateRun_spec (fenced_zero h) hf
  have hstay := stays_locateRun (Nat.le_refl t.size) f
  unfold locate
  generalize locateRun t f = found at hin hrun hedit hready hstay ⊢
  obtain ⟨run, u⟩ := found
  simp only at hin hrun hedit hready hstay ⊢
  have hu := hedit.wellFormed
  cases hd : u.findDescendant? run Word.text with
  | none =>
    refine ⟨hin.createBelow hu hready.hosts (by decide) fun hlt => (hrun hlt).2.2, run, u.children run, [], ?_, fun hlt => (hrun hlt).2.2⟩
    have hchildren := hu.children_createBelow hready.hosts (.element Word.text []) .none run
    rw [if_pos rfl] at hchildren
    exact hchildren
  | some text =>
    obtain ⟨hw, hne, hel, -⟩ := hu.findDescendant?_eq_some hd
    obtain ⟨r, hr, hrw⟩ := (within_iff.mp hw).resolve_left hne
    obtain ⟨before, after, hc⟩ := List.append_of_mem (hu.mem_of_parent hr)
    refine ⟨hin, r, before, after, hc, fun hlt => ?_⟩
    -- an old node is not within a new run, so the run is the field's own
    have hold : run < t.size := by
      have hwt := hstay.within h hlt hrw
      by_cases he : r = run
      · exact he ▸ hlt
      · obtain ⟨c, hc, -⟩ := exists_child_of_within hwt he
        exact h.parent_lt_size hc
    obtain ⟨rfl, ⟨a, ha, har⟩, -⟩ := hrun hold
    exact hp.above a ha text r (within_trans har hw) hel hr

end Target

namespace Splice

theorem has_textTwigs (as : List (String × String)) (lines : List (List Char)) :
    ∀ w ∈ textTwigs as lines, w.has Kind.carries = false := by
  have hline : ∀ line, (lineTwig as line).has Kind.carries = false := fun _ => rfl
  have hbroken : ∀ w ∈ brokenTwigs as (lines.drop 1), w.has Kind.carries = false := by
    intro w hw
    obtain ⟨line, -, hw⟩ := List.mem_flatMap.mp hw
    simp only [List.mem_cons, List.not_mem_nil, or_false] at hw
    rcases hw with rfl | rfl
    · rfl
    · exact hline line
  cases lines with
  | nil => exact fun _ hw => nomatch hw
  | cons line lines =>
    intro w hw
    rcases List.mem_cons.mp hw with rfl | hw
    · exact hline line
    · exact hbroken w hw

/-- What is made for a text is inert, where it comes to stand in the tree. -/
theorem inert_putText {Q : NodeId → Prop} {z : NodeId} {t : Tree} (h : t.WellFormed) (hz : z < t.size) {f : Field}
    (hf : f.Owned (fun x => 0 ≤ x) t) (hp : f.Places t Q) (s : String) : Inert Q t.size z (putText f s t) := by
  obtain ⟨hin, r, before, after, hc, hQ⟩ := Target.inert_locate h hz hf hp
  obtain ⟨hloc, -, htext, hne⟩ := Target.locate_spec (fenced_zero h) hf
  have hname := isNamed_text t f
  have hstay := Target.stays_locate (Nat.le_refl t.size) f
  unfold putText
  generalize Target.locate t f = found at hin hc hloc htext hne hname hstay ⊢
  obtain ⟨target, u⟩ := found
  simp only at hin hc hloc htext hne hname hstay ⊢
  have hu := hloc.wellFormed
  obtain ⟨name, as, hkind⟩ := kind_of_isElement (isElement_of_isNamed hname)
  obtain rfl : name = Word.text := by
    rw [isNamed_of_kind hkind] at hname
    exact beq_iff_eq.mp hname
  obtain ⟨ids, hfollows, htwigs⟩ := follows_addLines hu hc (hu.twig_node.mpr ⟨hkind, rfl⟩) (Text.splitAt '\n' s.toList)
  have hlines := hin.follows hu hstay.grows hz hc hfollows
    (fun x hx => has_textTwigs as _ _ (htwigs ▸ List.mem_map_of_mem hx)) hQ
  have hcut := hlines.detachAll [target.text]
  have hstayed := (hstay.trans (stays_addLines hstay.grows target.text (Text.splitAt '\n' s.toList))).trans
    (stays_detach t.size _ target.text)
  unfold Target.finish
  cases f.shape with
  | complex => exact hcut.detachAll _
  | simple =>
    have hfirst := hf f.first f.first_mem_anchors
    refine hcut.unwrap (hfollows.relists.wellFormed.detach target.text) fun p hpar => ?_
    have hpar := hstayed.parent f.first hfirst.2.lt_size p hpar
    refine hp.above f.first f.first_mem_anchors f.first p (within_refl t _) (hfirst.2.inner.resolve_left fun he => ?_) hpar
    rw [he, h.top] at hpar
    cases hpar

end Splice

end MailMerge
