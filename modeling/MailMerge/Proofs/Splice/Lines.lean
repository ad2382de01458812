/-
  MailMerge.Proofs.Splice.Lines — what a text looks like in a field's place.

  The field is one element around one run, and the run has one text element. Each line of
  the text becomes a copy of that element, with a line break before all but the first; the
  run then takes the place of the field.

  Proved: the run holds the lines where it held the text element, and nothing else is
  changed (`putText_spec`); a field that is removed leaves a gap (`remove_spec`).
-/

import MailMerge.Proofs.Tree.Twigs

namespace MailMerge

open MailMerge.Tree

namespace Splice

/-- A copy of a text element that holds a line. -/
def lineTwig (attributes : List (String × String)) (line : List Char) : Twig :=
  .node (.element Word.text (if hasOuterBlank line then setAttribute.put Word.space Word.preserve attributes else attributes))
    [.node (.text (String.ofList line)) []]

/-- The lines behind the first, each with its break. -/
def brokenTwigs (attributes : List (String × String)) (lines : List (List Char)) : List Twig :=
  lines.flatMap fun line => [.node (.element Word.lineBreak []) [], lineTwig attributes line]

/-- What stands in the place of a text element with these attributes. -/
def textTwigs (attributes : List (String × String)) : List (List Char) → List Twig
  | [] => []
  | line :: lines => lineTwig attributes line :: brokenTwigs attributes lines

end Splice

namespace Tree

variable {t : Tree}

theorem size_detachAll (t : Tree) (ids : List NodeId) : (t.detachAll ids).size = t.size := by
  induction ids generalizing t with
  | nil => rfl
  | cons x ids ih => rw [detachAll, List.foldl_cons, ← detachAll, ih, size_detach]

theorem twig_setText (h : t.WellFormed) {id : NodeId} {name : String} {as : List (String × String)}
    (hk : t.kind id = .element name as) (data : String) :
    (t.setText id data).twig id = .node (.element name as) [.node (.text data) []] := by
  have hw := h.detachAll (t.children id)
  have hlt : id < t.size := lt_size_of_isElement (isElement_of_kind hk)
  have hsize := size_detachAll t (t.children id)
  have hhosts : Hosts (t.detachAll (t.children id)) id :=
    hosts_of_isElement (isElement_of_kind ((kind_detachAll t _ id).trans hk))
  have hset : t.setText id data =
      ((t.detachAll (t.children id)).create (.text data) .none).2.appendChild id (t.detachAll (t.children id)).size := by
    rw [setText, hk]
    rfl
  have hchildren := hw.children_createBelow hhosts (.text data) .none
  have hkind := kind_createBelow (t.detachAll (t.children id)) id (.text data) .none
  have hbelow := hw.createBelow hhosts (.text data) .none
  rw [← hset] at hchildren hkind hbelow
  have hempty : (t.detachAll (t.children id)).children id = [] := by
    rw [h.children_detachAll]
    simp
  rw [hbelow.twig_node]
  refine ⟨?_, ?_⟩
  · rw [hkind, hsize, if_neg (Nat.ne_of_lt hlt), kind_detachAll, hk]
  · rw [hchildren, if_pos rfl, hempty, List.nil_append, List.map_singleton]
    congr 1
    rw [hbelow.twig_node]
    refine ⟨by rw [hkind, if_pos rfl], ?_⟩
    rw [hchildren, if_neg (by rw [hsize]; exact Nat.ne_of_gt hlt), children_of_size_le (Nat.le_refl _)]
    rfl

theorem twig_setAttribute (h : t.WellFormed) {id : NodeId} {name : String} {as : List (String × String)} {ws : List Twig}
    (ht : t.twig id = .node (.element name as) ws) (key value : String) :
    (t.setAttribute id key value).twig id = .node (.element name (setAttribute.put key value as)) ws := by
  obtain ⟨hk, hws⟩ := h.twig_node.mp ht
  have hlt : id < t.size := lt_size_of_isElement (isElement_of_kind hk)
  have hset : t.setAttribute id key value = t.setKind id (.element name (setAttribute.put key value as)) := by
    rw [setAttribute, hk]
  have hlinks : SameLinks t (t.setKind id (.element name (setAttribute.put key value as))) :=
    sameLinks_setKind fun _ => ⟨_, _, rfl⟩
  have hw := hlinks.wellFormed h
  rw [hset, hw.twig_node]
  refine ⟨by rw [kind_setKind, if_pos ⟨rfl, hlt⟩], ?_⟩
  rw [children_setKind, ← hws]
  refine List.map_congr_left fun c hc => twig_congr h hw fun d hd => ⟨?_, hlinks.children d⟩
  rw [kind_setKind]
  exact if_neg fun ⟨he, _⟩ => h.not_within_of_parent (h.parent_of_mem hc) (he ▸ hd)

end Tree

namespace Splice

variable {t : Tree}

theorem twig_lineElement (h : t.WellFormed) {model : NodeId} (hne : model ≠ root) {as : List (String × String)}
    {ws : List Twig} (hm : t.twig model = .node (.element Word.text as) ws) (line : List Char) :
    (lineElement t model line).2.twig (lineElement t model line).1 = lineTwig as line := by
  have hcopy := deepCopy_spec h hne
  unfold lineElement
  generalize t.deepCopy model = made at hcopy ⊢
  obtain ⟨copy, u⟩ := made
  simp only at hcopy ⊢
  have htwig : u.twig copy = .node (.element Word.text as) ws := hcopy.twig.trans hm
  have hset := twig_setText hcopy.beyond.wellFormed (hcopy.beyond.wellFormed.twig_node.mp htwig).1 (String.ofList line)
  have hfst := hcopy.fst
  have htext := hcopy.beyond.zone.setText (Nat.le_of_eq hfst.symm) (String.ofList line)
  unfold lineTwig
  split
  · exact twig_setAttribute htext.wellFormed hset Word.space Word.preserve
  · exact hset

/-! ## The lines beside a text element -/

/-- New nodes stand behind `anchor`, a child of `r`, and no other child list is changed. -/
structure Follows (t : Tree) (r anchor : NodeId) (before ids after : List NodeId) (u : Tree) : Prop where
  relists : Relists (· = r) t u
  children : u.children r = before ++ anchor :: ids ++ after

theorem Follows.trans {r anchor x : NodeId} {before ids ids' after : List NodeId} {u v : Tree}
    (hu : Follows t r anchor before (ids ++ [x]) after u) (hv : Follows u r x (before ++ anchor :: ids) ids' after v) :
    Follows t r anchor before (ids ++ x :: ids') after v ∧ (ids ++ [x]).map v.twig = (ids ++ [x]).map u.twig := by
  refine ⟨⟨hu.relists.trans hv.relists, by rw [hv.children]; simp⟩, ?_⟩
  refine hv.relists.twigs_children hu.relists.wellFormed fun y hy => ?_
  rw [hu.children]
  exact List.mem_append_left _ (List.mem_append_right _ (List.mem_cons_of_mem anchor hy))

/-- A new node is put behind a child. -/
theorem follows_insertAfter (h : t.WellFormed) {r anchor x : NodeId} {before after : List NodeId} {u : Tree}
    (hc : t.children r = before ++ anchor :: after) (hu : Beyond t.size t u) (hx : t.size ≤ x) (hlt : x < u.size)
    (hp : u.parent x = none) : Follows t r anchor before [x] after (u.insertAfter anchor x) ∧
      (u.insertAfter anchor x).twig x = u.twig x := by
  have hr : r < t.size := lt_size_of_mem_children (by rw [hc]; simp : anchor ∈ t.children r)
  have hapart : ¬ u.Within x r := fun hw => Nat.not_lt_of_le (hu.zone.within hx hw) hr
  have hspare : Spare u r [x] := by
    refine ⟨List.nodup_singleton x, fun y hy => ?_⟩
    rw [List.mem_singleton.mp hy]
    exact ⟨Nat.ne_of_gt (Nat.lt_of_lt_of_le h.rooted hx), hlt, hp, hapart⟩
  rw [← hu.children_eq hr] at hc
  obtain ⟨hrel, hch⟩ := hspare.insert hu.wellFormed hc
  exact ⟨⟨(Relists.of_beyond hu).trans hrel, hch⟩, hrel.twig hu.wellFormed hlt fun d hd he => hapart (he ▸ hd)⟩

/-- A line is put behind a child. -/
theorem follows_line (h : t.WellFormed) {r anchor model : NodeId} {before after : List NodeId}
    (hc : t.children r = before ++ anchor :: after) (hne : model ≠ root) {as : List (String × String)} {ws : List Twig}
    (hm : t.twig model = .node (.element Word.text as) ws) (line : List Char) :
    Follows t r anchor before [(lineElement t model line).1] after
        ((lineElement t model line).2.insertAfter anchor (lineElement t model line).1) ∧
      ((lineElement t model line).2.insertAfter anchor (lineElement t model line).1).twig (lineElement t model line).1 =
        lineTwig as line := by
  have hnew := lineElement_spec h hne line
  have hlt : (lineElement t model line).1 < (lineElement t model line).2.size := by rw [hnew.fst]; exact hnew.lt_size
  obtain ⟨hf, htwig⟩ := follows_insertAfter h hc hnew.beyond (Nat.le_of_eq hnew.fst.symm) hlt hnew.parent
  exact ⟨hf, htwig.trans (twig_lineElement h hne hm line)⟩

/-- The text element that is copied does not change while lines are put beside it. -/
theorem twig_model {r model : NodeId} {u : Tree} (h : t.WellFormed) (hmr : model ∈ t.children r)
    (hrel : Relists (· = r) t u) : u.twig model = t.twig model := by
  have hone : ∀ c ∈ [model], c ∈ t.children r := fun c hc => List.mem_singleton.mp hc ▸ hmr
  simpa using hrel.twigs_children h hone

theorem follows_brokenLines {r model : NodeId} (hne : model ≠ root) {as : List (String × String)} {ws : List Twig}
    (lines : List (List Char)) {t : Tree} (h : t.WellFormed) {anchor : NodeId} {before after : List NodeId}
    (hc : t.children r = before ++ anchor :: after) (hmr : model ∈ t.children r)
    (hm : t.twig model = .node (.element Word.text as) ws) :
    ∃ ids, Follows t r anchor before ids after (addBrokenLines model anchor t lines) ∧
      ids.map (addBrokenLines model anchor t lines).twig = brokenTwigs as lines := by
  induction lines generalizing t anchor before with
  | nil => exact ⟨[], ⟨.refl h, by rw [addBrokenLines, hc]; simp⟩, rfl⟩
  | cons line lines ih =>
    -- a break behind the anchor, the line behind the break, the others behind the line
    have hbeyond : Beyond t.size t (t.create (.element Word.lineBreak []) .none).2 := (fenced_size h).create _ _
    have hparent : (t.create (.element Word.lineBreak []) .none).2.parent t.size = none := by
      rw [parent_create]; exact parent_of_size_le (Nat.le_refl _)
    obtain ⟨hbreak, htwigb⟩ := follows_insertAfter h hc hbeyond (Nat.le_refl _)
      (by rw [size_create]; exact Nat.lt_succ_self _) hparent
    generalize hu : (t.create (.element Word.lineBreak []) .none).2.insertAfter anchor t.size = u at hbreak htwigb
    have hwu := hbreak.relists.wellFormed
    have hcu : u.children r = (before ++ [anchor]) ++ t.size :: after := by rw [hbreak.children]; simp
    have hmu : u.twig model = .node (.element Word.text as) ws := (twig_model h hmr hbreak.relists).trans hm
    obtain ⟨hline, htwigl⟩ := follows_line hwu hcu hne hmu line
    generalize hcopy : (lineElement u model line).1 = copy at hline htwigl
    generalize hv : (lineElement u model line).2.insertAfter t.size copy = v at hline htwigl
    have hkeep : ∀ {w : Tree} {ids}, w.children r = before ++ anchor :: ids ++ after → model ∈ w.children r := by
      intro w ids hw
      rw [hc] at hmr
      rw [hw]
      simp only [List.mem_append, List.mem_cons] at hmr ⊢
      rcases hmr with hmr | hmr | hmr
      · exact Or.inl (Or.inl hmr)
      · exact Or.inl (Or.inr (Or.inl hmr))
      · exact Or.inr hmr
    obtain ⟨htwo, hold⟩ := (show Follows t r anchor before ([] ++ [t.size]) after u from hbreak).trans hline
    have hcv : v.children r = (before ++ [anchor, t.size]) ++ copy :: after := by rw [htwo.children]; simp
    have hmv : v.twig model = .node (.element Word.text as) ws :=
      (twig_model hwu (hkeep hbreak.children) hline.relists).trans hmu
    obtain ⟨ids, hrest, htwigs⟩ := ih htwo.relists.wellFormed hcv (hkeep htwo.children) hmv
    have hall : addBrokenLines model anchor t (line :: lines) = addBrokenLines model copy v lines := by
      rw [addBrokenLines, ← hv, ← hcopy, ← hu]
      rfl
    rw [hall]
    obtain ⟨hfin, hold'⟩ := (show Follows t r anchor before ([t.size] ++ [copy]) after v from htwo).trans
      (show Follows v r copy (before ++ anchor :: [t.size]) ids after _ from hrest)
    refine ⟨_, hfin, ?_⟩
    have hb : v.twig t.size = .node (.element Word.lineBreak []) [] := by
      have hfilled := filling_create h (.element Word.lineBreak []) .none
      have hnode := hfilled.beyond.wellFormed.twig_node.mpr ⟨hfilled.kind, hfilled.twigs⟩
      have hsame : v.twig t.size = u.twig t.size := by simpa using hold
      rw [hsame, htwigb, hnode]
    simp only [List.singleton_append, List.map_cons, List.map_nil, hb, htwigl, List.cons.injEq] at hold'
    rw [List.singleton_append, List.map_cons, List.map_cons, htwigs, hold'.1, hold'.2.1]
    rfl

/-- The lines stand behind the text element that they are copies of. -/
theorem follows_addLines (h : t.WellFormed) {r model : NodeId} {before after : List NodeId}
    (hc : t.children r = before ++ model :: after) {as : List (String × String)} {ws : List Twig}
    (hm : t.twig model = .node (.element Word.text as) ws) (lines : List (List Char)) :
    ∃ ids, Follows t r model before ids after (addLines model t lines) ∧
      ids.map (addLines model t lines).twig = textTwigs as lines := by
  have hmr : model ∈ t.children r := by rw [hc]; simp
  have hne : model ≠ root := fun he => by
    have hp := h.parent_of_mem hmr
    rw [he, h.top] at hp
    cases hp
  cases lines with
  | nil => exact ⟨[], ⟨.refl h, by rw [addLines, hc]; simp⟩, rfl⟩
  | cons line lines =>
    obtain ⟨hline, htwigl⟩ := follows_line h hc hne hm line
    generalize hcopy : (lineElement t model line).1 = copy at hline htwigl
    generalize hv : (lineElement t model line).2.insertAfter model copy = v at hline htwigl
    have hcv : v.children r = (before ++ [model]) ++ copy :: after := by rw [hline.children]; simp
    have hmv := (twig_model h hmr hline.relists).trans hm
    obtain ⟨ids, hrest, htwigs⟩ := follows_brokenLines hne lines hline.relists.wellFormed hcv (by rw [hcv]; simp) hmv
    have hall : addLines model t (line :: lines) = addBrokenLines model copy v lines := by
      rw [addLines, ← hv, ← hcopy]
    rw [hall]
    obtain ⟨hfin, hold⟩ := (show Follows t r model before ([] ++ [copy]) after v from hline).trans hrest
    refine ⟨_, hfin, ?_⟩
    have hl : (addBrokenLines model copy v lines).twig copy = v.twig copy := by simpa using hold
    rw [List.nil_append, List.map_cons, htwigs, hl, htwigl]
    rfl

/-- The lines take the place of the text element that they are copies of. -/
theorem relists_lines (h : t.WellFormed) {q text : NodeId} {before after : List NodeId}
    (hc : t.children q = before ++ text :: after) {as : List (String × String)} (hk : t.kind text = .element Word.text as)
    (lines : List (List Char)) : ∃ ids, Relists (· = q) t ((addLines text t lines).detach text) ∧
      ((addLines text t lines).detach text).children q = before ++ ids ++ after ∧
      ids.map ((addLines text t lines).detach text).twig = textTwigs as lines := by
  obtain ⟨ids, hlines, htwigs⟩ := follows_addLines h hc (h.twig_node.mpr ⟨hk, rfl⟩) lines
  generalize addLines text t lines = u at hlines htwigs ⊢
  have hwu := hlines.relists.wellFormed
  have hcu : u.children q = before ++ text :: (ids ++ after) := by rw [hlines.children]; simp
  have hone : ∀ x ∈ [text], x ∈ u.children q := fun x hx => by
    rw [List.mem_singleton.mp hx, hcu]
    simp
  have hgone : Relists (· = q) u (u.detach text) := hwu.relists_detachAll hone
  refine ⟨ids, hlines.relists.trans hgone, by rw [hwu.children_detach_of_mem hcu, List.append_assoc], ?_⟩
  rw [← htwigs]
  exact hgone.twigs_children hwu fun x hx => by rw [hcu]; simp [hx]

/-! ## The field's place -/

/-- A field that is one element around one run, with a text element in it. -/
structure Shows (t : Tree) (f : Field) (runAs textAs : List (String × String)) (pre text post : List Twig) : Prop where
  shape : f.shape = .simple
  others : f.others = []
  twig : ∃ k, t.twig f.first = .node k [.node (.element Word.run runAs) (pre ++ .node (.element Word.text textAs) text :: post)]
  first : Twig.hasIn (Kind.isNamed Word.text) pre = false

variable {f : Field} {runAs textAs : List (String × String)} {pre text post : List Twig}

/-- The field's run and its text element are found. -/
theorem Shows.locate (h : t.WellFormed) (hf : Shows t f runAs textAs pre text post) :
    ∃ r y ids ids', Target.locate t f = (⟨r, y⟩, t) ∧ t.children f.first = [r] ∧ t.kind r = .element Word.run runAs ∧
      t.children r = ids ++ y :: ids' ∧ ids.map t.twig = pre ∧ t.twig y = .node (.element Word.text textAs) text ∧
      ids'.map t.twig = post := by
  obtain ⟨k, hk⟩ := hf.twig
  obtain ⟨r, hcf, hr⟩ := List.map_eq_singleton_iff.mp (h.twig_node.mp hk).2
  obtain ⟨hkr, hcr⟩ := h.twig_node.mp hr
  obtain ⟨ids, more, hsplit, hpre, hmore⟩ := List.map_eq_append_iff.mp hcr
  obtain ⟨y, ids', rfl, hy, hpost⟩ := List.map_eq_cons_iff.mp hmore
  have hrun : t.findDescendant? f.first Word.run = some r := by
    rw [findDescendant?, h.descendants_eq, hcf, List.flatMap_singleton, h.subtree_eq,
      List.find?_cons_of_pos (by rw [isNamed_of_kind hkr]; exact beq_self_eq_true _)]
  have htext : t.findDescendant? r Word.text = some y := by
    rw [findDescendant?, h.descendants_eq, hsplit, List.flatMap_append, List.flatMap_cons, List.find?_append,
      List.find?_eq_none.mpr fun d hd => ?_, h.subtree_eq, Option.none_or, List.cons_append, List.find?_cons_of_pos]
    · rw [isNamed_of_kind (h.twig_node.mp hy).1]; exact beq_self_eq_true _
    · have hfirst := hf.first
      rw [← hpre, h.hasIn_twigs] at hfirst
      rw [isNamed_eq, hfirst d hd]
      exact Bool.false_ne_true
  refine ⟨r, y, ids, ids', ?_, hcf, hkr, hsplit, hpre, hy, hpost⟩
  have hlocate : Target.locateRun t f = (r, t) := by
    rw [Target.locateRun, Field.display?, hf.shape]
    simp only [hrun]
  rw [Target.locate, hlocate]
  simp only [htext]

/-- The run takes the field's place, and the lines take the place of its text element. -/
theorem putText_spec (h : t.WellFormed) (hf : Shows t f runAs textAs pre text post) {c : NodeId}
    {before after : List NodeId} (hc : t.children c = before ++ f.first :: after) (s : String) :
    Relists (fun d => d = c ∨ t.Within f.first d) t (putText f s t) ∧
      ∃ r, (putText f s t).children c = before ++ r :: after ∧ (putText f s t).twig r =
        .node (.element Word.run runAs) (pre ++ textTwigs textAs (MailMerge.Text.splitAt '\n' s.toList) ++ post) := by
  obtain ⟨r, y, ids, ids', hlocate, hcf, hkr, hcr, hpre, hy, hpost⟩ := hf.locate h
  obtain ⟨lines, hrel, hcu, htwigs⟩ := relists_lines h hcr (h.twig_node.mp hy).1 (MailMerge.Text.splitAt '\n' s.toList)
  generalize hv : (addLines y t (MailMerge.Text.splitAt '\n' s.toList)).detach y = v at hrel hcu htwigs
  have hput : putText f s t = v.unwrap f.first := by
    rw [putText, hlocate, ← hv]
    simp only [Target.finish, hf.shape]
  have hrf := h.parent_of_mem (by rw [hcf]; exact List.mem_cons_self : r ∈ t.children f.first)
  have hfc := h.parent_of_mem (by rw [hc]; simp : f.first ∈ t.children c)
  have hcr' : c ≠ r := fun he => h.not_within_of_parent hrf (he ▸ within_of_parent hfc)
  have hfr : f.first ≠ r := fun he => h.not_within_of_parent hrf (he ▸ within_refl t r)
  have hw := hrel.wellFormed
  have hkeep : ∀ {q : NodeId}, q < t.size → q ≠ r → v.children q = t.children q := fun hq hne => hrel.children _ hq hne
  have hcv : v.children c = before ++ f.first :: after := (hkeep (h.parent_lt_size hfc) hcr').trans hc
  have hfv : v.children f.first = [r] := (hkeep (h.parent_lt_size hrf) hfr).trans hcf
  -- then the run takes the field's place
  obtain ⟨hlast, hchildren⟩ := hw.unwrap_spec hcv
  rw [← hput] at hlast hchildren
  rw [hfv] at hchildren
  have hrv := hw.parent_of_mem (by rw [hfv]; exact List.mem_cons_self : r ∈ v.children f.first)
  have hfv' := hw.parent_of_mem (by rw [hcv]; simp : f.first ∈ v.children c)
  have hkr' : v.kind r = .element Word.run runAs := (hrel.kind r (lt_size_of_parent hrf)).trans hkr
  refine ⟨?_, r, by rw [hchildren]; simp, ?_⟩
  · refine (hrel.mono fun x _ hx => ?_).trans (hlast.mono fun x _ hx => ?_)
    · rw [hx]; exact Or.inr (within_of_parent hrf)
    · refine hx.imp_right fun he => ?_
      rw [he]
      exact within_refl t _
  rw [hlast.twig hw (lt_size_of_parent hrv) fun d hd hP => ?_, hw.twig_node]
  · refine ⟨hkr', ?_⟩
    have hold : ∀ x ∈ ids ++ ids', x ∈ t.children r := fun x hx => by
      rw [hcr]
      simp only [List.mem_append, List.mem_cons] at hx ⊢
      exact hx.imp_right Or.inr
    have hids := hrel.twigs_children h hold
    rw [List.map_append, List.map_append, hpre, hpost] at hids
    obtain ⟨h1, h2⟩ := List.append_inj hids (by rw [List.length_map, ← hpre, List.length_map])
    rw [hcu, List.map_append, List.map_append, h1, h2, htwigs]
  · have hrc : v.Within r f.first := by
      rcases hP with rfl | rfl
      · exact within_parent hd hfv'
      · exact hd
    exact hw.not_within_of_parent hrv hrc

/-- A field that is removed leaves its siblings as they were. -/
theorem remove_spec (h : t.WellFormed) (hf : f.others = []) {c : NodeId} {before after : List NodeId}
    (hc : t.children c = before ++ f.first :: after) :
    Relists (· = c) t (f.remove t) ∧ (f.remove t).children c = before ++ after := by
  have hremove : f.remove t = t.detach f.first := by
    rw [Field.remove, Field.anchors, hf]
    rfl
  have hone : ∀ x ∈ [f.first], x ∈ t.children c := fun x hx => by rw [List.mem_singleton.mp hx, hc]; simp
  rw [hremove]
  exact ⟨h.relists_detachAll hone, h.children_detach_of_mem hc⟩

end Splice

end MailMerge
