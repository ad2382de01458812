/-
  MailMerge.Proofs.Splice.Exact — a text in the place of a field.

  The text goes into the run that displays the field's result: of a field that is one element
  the first run in it, of a field over runs the anchor behind the separator, or else a new run.
  Then the field's markers go. A field over runs leaves that one anchor, and a field that is one
  element leaves all that is in it.

  Proved: below any node above the field stands what stood in front of the field, then the text,
  then what stood behind the field, and around the text there is what the field keeps
  (`putText_exact`): all that is displayed but the first text element of the run. So the old
  result is gone just if no text is displayed besides that one. A field that is one element
  around two runs keeps the second (`second_run_kept`).
-/

import Mathlib
import MailMerge.Proofs.Splice.Filled
import MailMerge.Proofs.Splice.Inert

namespace MailMerge

open MailMerge.Tree

/-! ## A text in a field's place -/

namespace Field

/-- The run that displays the result. -/
def run? (f : Field) (t : Tree) : Option NodeId :=
  match f.shape with
  | .simple => t.findDescendant? f.first Word.run
  | .complex => f.resultAnchor? t

/-- The nodes that stay when the field goes from around its result. -/
def shown (f : Field) (t : Tree) : List NodeId :=
  match f.shape with
  | .simple => t.descendants f.first
  | .complex => (f.resultAnchor? t).toList.flatMap t.subtree

/-- What of the field stays in front of a text that is put in its place and behind it, and the
    attributes that the text is put in with. -/
inductive Keeps (f : Field) (t : Tree) : (front behind : List NodeId) → (as : List (String × String)) → Prop
  | inRun {run : NodeId} {before after front behind : List NodeId} {as : List (String × String)} :
      f.run? t = some run → f.shown t = before ++ t.subtree run ++ after → Splice.Around t run front behind as →
      Keeps f t (before ++ front) (behind ++ after) as
  | alone : f.run? t = none → Keeps f t (f.shown t) [] []

end Field

namespace Splice

/-- A run is made just if none displays the result. -/
structure Supplied (f : Field) (t u : Tree) (made : List NodeId) : Prop where
  lt_size : ∀ x ∈ made, x < u.size
  kinds : made.map u.kind = if f.run? t = none then [.element Word.run []] else []

namespace Supplied

variable {f : Field} {t u : Tree} {made : List NodeId}

theorem none_made {run : NodeId} (hr : f.run? t = some run) (u : Tree) : Supplied f t u [] :=
  ⟨(fun _ hx => nomatch hx), by rw [hr]; rfl⟩

theorem one_made {run : NodeId} (hr : f.run? t = none) (hk : u.kind run = .element Word.run []) : Supplied f t u [run] where
  lt_size x hx := by
    rw [List.mem_singleton.mp hx]
    exact lt_size_of_isElement (isElement_of_kind hk)
  kinds := by rw [if_pos hr, List.map_singleton, hk]

theorem later {P : NodeId → Prop} {v : Tree} (hm : Supplied f t u made) (h : Relists P u v) :
    Supplied f t v made where
  lt_size x hx := Nat.lt_of_lt_of_le (hm.lt_size x hx) h.grows
  kinds := by
    rw [← hm.kinds]
    exact List.map_congr_left fun x hx => h.kind x (hm.lt_size x hx)

theorem kinds_cases (hm : Supplied f t u made) : made.map u.kind = [.element Word.run []] ∨ made.map u.kind = [] := by
  rw [hm.kinds]
  split <;> simp

theorem textOf_made (hm : Supplied f t u made) : u.textOf made = "" := by
  rw [textOf_eq]
  rcases hm.kinds_cases with he | he <;> rw [he] <;> rfl

theorem countP_made (hm : Supplied f t u made) : made.countP (u.isNamed Word.lineBreak) = 0 := by
  rw [countP_isNamed]
  rcases hm.kinds_cases with he | he <;> rw [he] <;> rfl

theorem ne_text (hm : Supplied f t u made) {x : NodeId} (hx : x ∈ made) (line : String) : u.kind x ≠ .text line := by
  intro hline
  have hmem := List.mem_map_of_mem (f := u.kind) hx
  rw [hline] at hmem
  rcases hm.kinds_cases with he | he <;> rw [he] at hmem <;> simp at hmem

end Supplied

/-- `u` is `t` with the lines in the place that the field has in the child list of `c`. -/
structure Replaces (t : Tree) (f : Field) (c : NodeId) (before after : List NodeId) (lines : List (List Char))
    (u : Tree) : Prop where
  relists : Relists (fun d => d = c ∨ ∃ a ∈ f.anchors, t.Within a d) t u
  placed : ∃ front behind as, ∃ ids made lineIds : List NodeId, f.Keeps t front behind as ∧ Supplied f t u made ∧
    u.children c = before ++ ids ++ after ∧ ids.flatMap u.subtree = front ++ (made ++ lineIds.flatMap u.subtree) ++ behind ∧
    lineIds.map u.twig = textTwigs as lines

theorem putText_eq (f : Field) (s : String) (t : Tree) : putText f s t =
    match f.shape with
    | .simple => (fill (Text.splitAt '\n' s.toList) (Target.locateRun t f).1 (Target.locateRun t f).2).unwrap f.first
    | .complex => (fill (Text.splitAt '\n' s.toList) (Target.locateRun t f).1 (Target.locateRun t f).2).detachAll
        (f.anchors.filter (· != (Target.locateRun t f).1)) := by
  rw [putText, Target.locate, fill]
  cases hd : (Target.locateRun t f).2.findDescendant? (Target.locateRun t f).1 Word.text <;> cases hs : f.shape <;>
    simp only [Target.finish, hs, hd]

/-- The markers around a run go. -/
theorem relists_markers {u : Tree} (hu : u.WellFormed) {c run : NodeId} {before after l l' : List NodeId}
    (hc : u.children c = before ++ (l ++ run :: l') ++ after) : Relists (· = c) u (u.detachAll (l ++ l')) ∧
      (u.detachAll (l ++ l')).children c = before ++ [run] ++ after := by
  have hnd := hu.distinct c
  rw [hc] at hnd
  have hstay : ∀ xs : List NodeId, (∀ x ∈ xs, x ∈ before ++ run :: after) → xs.filter (· ∉ l ++ l') = xs := by
    intro xs hxs
    refine List.filter_eq_self.mpr fun x hx => decide_eq_true ?_
    have hin := hxs x hx
    simp only [List.nodup_append, List.nodup_cons, List.mem_append, List.mem_cons] at hnd hin ⊢
    grind
  have hgo : ∀ xs : List NodeId, (∀ x ∈ xs, x ∈ l ++ l') → xs.filter (· ∉ l ++ l') = [] := fun xs hxs =>
    List.filter_eq_nil_iff.mpr fun x hx => by
      rw [decide_eq_true_eq, not_not]
      exact hxs x hx
  refine ⟨hu.relists_detachAll fun x hx => ?_, ?_⟩
  · rw [hc]
    simp only [List.mem_append, List.mem_cons] at hx ⊢
    tauto
  · have hrow : before ++ (l ++ run :: l') ++ after = before ++ (l ++ ([run] ++ l')) ++ after := rfl
    rw [hu.children_detachAll, hc, hrow, List.filter_append, List.filter_append, List.filter_append, List.filter_append,
      hstay before fun x hx => by simp [hx], hstay after fun x hx => by simp [hx], hstay [run] fun x hx => by simp_all,
      hgo l fun x hx => by simp [hx], hgo l' fun x hx => by simp [hx]]
    simp

theorem Holds.markers_gone {u : Tree} (hu : u.WellFormed) {c run : NodeId} {lines : List (List Char)}
    {before after l l' front behind ids : List NodeId} {as : List (String × String)} (hh : Holds u run lines front behind as ids)
    (hc : u.children c = before ++ (l ++ run :: l') ++ after) : Holds (u.detachAll (l ++ l')) run lines front behind as ids := by
  have hp : u.parent run = some c := hu.parent_of_mem (by rw [hc]; simp)
  exact hh.later hu (lt_size_of_parent hp) (relists_markers hu hc).1 fun d hd he => hu.not_within_of_parent hp (he ▸ hd)

/-- The run and the lines in it, when the markers around the run are gone. -/
theorem replaces_among_markers {t v : Tree} {f : Field} {c run : NodeId} {before after l l' : List NodeId}
    (hv : Relists (· = c) t v) (hcv : v.children c = before ++ (l ++ run :: l') ++ after)
    (hcut : f.anchors.filter (· != run) = l ++ l') (hrun : Hosts v run)
    (hin : ∀ d < t.size, v.Within run d → ∃ a ∈ f.anchors, t.Within a d) (lines : List (List Char))
    (hkeep : ∀ front behind as, Around v run front behind as →
      ∃ front' made, front = front' ++ made ∧ f.Keeps t front' behind as ∧ Supplied f t v made) :
    Replaces t f c before after lines ((fill lines run v).detachAll (f.anchors.filter (· != run))) := by
  have hp : v.parent run = some c := hv.wellFormed.parent_of_mem (by rw [hcv]; simp)
  obtain ⟨front, behind, as, ids, haround, hrel, hholds⟩ := fill_spec hv.wellFormed hrun lines
  obtain ⟨front', made, rfl, hkeeps, hmade⟩ := hkeep front behind as haround
  generalize fill lines run v = u at hrel hholds ⊢
  have hcu : u.children c = before ++ (l ++ run :: l') ++ after := by
    rw [hrel.children c (hv.wellFormed.parent_lt_size hp) (hv.wellFormed.not_within_of_parent hp), hcv]
  obtain ⟨hgone, hlist⟩ := relists_markers hrel.wellFormed hcu
  have hheld := hholds.markers_gone hrel.wellFormed hcu
  rw [hcut]
  refine ⟨?_, front', behind, as, [run], made, ids, hkeeps, (hmade.later hrel).later hgone, hlist, ?_, hheld.twigs⟩
  · exact ((hv.mono fun _ _ => Or.inl).trans_of hrel fun x hx hw => Or.inr (hin x hx hw)).trans_of hgone fun _ _ => Or.inl
  · rw [List.flatMap_singleton, hheld.subtree]
    simp

/-- The run and the lines in it, when the field's element is gone from around them. -/
theorem replaces_in_element {t v : Tree} {f : Field} {c run : NodeId} {before after : List NodeId} (hv : Relists (· = f.first) t v)
    (hcv : v.children c = before ++ f.first :: after) (hrun : Hosts v run) (hw : v.Within f.first run) (hne : run ≠ f.first)
    (hin : ∀ d < t.size, v.Within run d → t.Within f.first d) (lines : List (List Char))
    (hkeep : ∀ pre post front behind as, v.descendants f.first = pre ++ v.subtree run ++ post → Around v run front behind as →
      ∃ front' made, pre ++ front = front' ++ made ∧ f.Keeps t front' (behind ++ post) as ∧ Supplied f t v made) :
    Replaces t f c before after lines ((fill lines run v).unwrap f.first) := by
  have hwv := hv.wellFormed
  have hfc : v.parent f.first = some c := hwv.parent_of_mem (by rw [hcv]; simp)
  obtain ⟨front, behind, as, ids, haround, hrel, hholds⟩ := fill_spec hwv hrun lines
  generalize fill lines run v = u at hrel hholds ⊢
  have hwu := hrel.wellFormed
  obtain ⟨pre, post, hold, hnew⟩ := hrel.exists_piece hwv hw hne
  obtain ⟨front', made, hfront, hkeeps, hmade⟩ := hkeep pre post front behind as hold haround
  have hcout : ¬ v.Within run c := fun hrc => hne (hwv.within_antisymm (within_parent hrc hfc) hw)
  have hcu : u.children c = before ++ f.first :: after := (hrel.children c (hwv.parent_lt_size hfc) hcout).trans hcv
  -- then what is in the element takes its place
  obtain ⟨hlast, hlist⟩ := hwu.unwrap_spec hcu
  have hfu := hwu.parent_of_mem (by rw [hcu]; simp : f.first ∈ u.children c)
  have hbelow : ∀ x, u.Within f.first x → x ≠ f.first → ∀ d, u.Within x d → ¬ (d = c ∨ d = f.first) := by
    rintro x hx hxf d hd (rfl | rfl)
    · exact hxf (hwu.within_antisymm (within_parent hd hfu) hx)
    · exact hxf (hwu.within_antisymm hd hx)
  have hrunu : u.Within f.first run := hrel.within hwv (fun _ hd => hd) hw
  have hrunlt := Nat.lt_of_lt_of_le hrun.lt_size hrel.grows
  have hheld := hholds.later hwu hrunlt hlast (hbelow run hrunu hne)
  have hsame := hlast.subtree hwu hrunlt (hbelow run hrunu hne)
  have hsubtrees := hlast.subtrees hwu (u.children f.first) (fun x hx => hx) fun x hx => by
    have hxf := hwu.parent_of_mem hx
    refine hbelow x (within_of_parent hxf) ?_
    rintro rfl
    exact hwu.not_within_of_parent hxf (within_refl u _)
  refine ⟨?_, front', behind ++ post, as, u.children f.first, made, ids, hkeeps, (hmade.later hrel).later hlast, hlist, ?_, hheld.twigs⟩
  · refine ((hv.mono fun x _ hx => ?_).trans_of hrel fun x hx hw => ?_).trans_of hlast fun x _ hx => ?_
    · exact Or.inr ⟨f.first, f.first_mem_anchors, hx ▸ within_refl t _⟩
    · exact Or.inr ⟨f.first, f.first_mem_anchors, hin x hx hw⟩
    · refine hx.imp_right fun he => ⟨f.first, f.first_mem_anchors, ?_⟩
      rw [he]
      exact within_refl t _
  · rw [hsubtrees, ← hwu.descendants_eq, hnew, ← hsame, hheld.subtree]
    have hfront := congrArg (· ++ (ids.flatMap (u.unwrap f.first).subtree ++ (behind ++ post))) hfront
    simpa using hfront

section exact

variable {t : Tree} (h : t.WellFormed) {f : Field} (hf : f ∈ t.fields root) {c : NodeId} {before after : List NodeId}
  (hc : t.children c = before ++ f.anchors ++ after) (lines : List (List Char))

include h hc

theorem within_of_anchor {a : NodeId} (ha : a ∈ f.anchors) : t.parent a = some c := h.parent_of_mem (by rw [hc]; simp [ha])

/-- Nothing beside the anchors stands in them, nor do they stand in it. -/
theorem not_within_beside {x : NodeId} (hx : x ∈ before ++ after) (d : NodeId) (hd : t.Within x d) :
    ¬ (d = c ∨ ∃ a ∈ f.anchors, t.Within a d) := by
  have hxc : t.parent x = some c := h.parent_of_mem (by rw [hc]; simp at hx ⊢; tauto)
  rintro (rfl | ⟨a, ha, had⟩)
  · exact h.not_within_of_parent hxc hd
  · obtain rfl := h.eq_of_within_siblings (hxc.trans (within_of_anchor h hc ha).symm) hd had (by simp [hxc])
    have hnd := h.distinct c
    rw [hc] at hnd
    simp only [List.nodup_append, List.mem_append] at hnd hx
    grind

/-- A field over runs without such a run leaves a new one. -/
theorem replaces_in_new_run (hs : f.shape = .complex) (hd : f.resultAnchor? t = none) :
    Replaces t f c before after lines ((fill lines t.size
      ((t.create (.element Word.run []) .none).2.insertBefore f.last t.size)).detachAll (f.anchors.filter (· != t.size))) := by
  obtain ⟨l, hl⟩ : ∃ l, f.anchors = l ++ [f.last] := by
    rcases List.eq_nil_or_concat f.others with ho | ⟨os, a, ho⟩
    · exact ⟨[], by rw [Field.anchors, Field.last, ho]; rfl⟩
    · exact ⟨f.first :: os, by rw [Field.anchors, Field.last, ho]; simp⟩
  have hnew : t.size ∉ f.anchors := fun hm => Nat.lt_irrefl _ (lt_size_of_parent (within_of_anchor h hc hm))
  have hcut : f.anchors.filter (· != t.size) = l ++ [f.last] := by rw [filter_ne_self hnew, hl]
  have hgets := h.gets_before (by rw [hc, hl]; simp : t.children c = (before ++ l) ++ f.last :: after) (.element Word.run []) .none
  generalize (t.create (.element Word.run []) .none).2.insertBefore f.last t.size = v at hgets ⊢
  have hv := hgets.relists.wellFormed
  have hcv : v.children c = before ++ (l ++ t.size :: [f.last]) ++ after := by rw [hgets.children]; simp
  have hrun : Hosts v t.size := hosts_of_isElement (isElement_of_kind hgets.kind)
  have hnone : f.run? t = none := by rw [Field.run?, hs]; exact hd
  have hshown : f.shown t = [] := by rw [Field.shown, hs, hd]; rfl
  refine replaces_among_markers hgets.relists hcv hcut hrun (fun d hd hw => ?_) lines fun front behind as haround => ?_
  · exact absurd (hv.eq_of_within_childless hgets.childless hw) (Nat.ne_of_lt hd)
  · obtain ⟨rfl, rfl, rfl⟩ := haround.of_childless hv hgets.childless
    exact ⟨[], [t.size], rfl, hshown ▸ .alone hnone, .one_made hnone hgets.kind⟩

include hf

/-- A field over runs leaves the run that displays its result. -/
theorem replaces_in_display {run : NodeId} (hs : f.shape = .complex) (hd : f.resultAnchor? t = some run) :
    Replaces t f c before after lines ((fill lines run t).detachAll (f.anchors.filter (· != run))) := by
  have hmem := Target.resultAnchor?_mem hd
  obtain ⟨l, l', hl⟩ := List.append_of_mem hmem
  have hcl : t.children c = before ++ (l ++ run :: l') ++ after := by rw [hc, hl]
  have hcut : f.anchors.filter (· != run) = l ++ l' := by
    have hcl' : t.children c = (before ++ l) ++ run :: (l' ++ after) := by rw [hcl]; simp
    obtain ⟨hleft, hright⟩ := h.children_cut hcl'
    rw [List.mem_append, not_or] at hleft hright
    rw [hl, List.filter_append, List.filter_cons_of_neg (by simp), filter_ne_self hleft.2, filter_ne_self hright.1]
  have hrun := ((fenced_zero h).owned_field (fun _ _ => Nat.zero_le _) (Nat.zero_le _) hf run hmem).2
  have hsome : f.run? t = some run := by rw [Field.run?, hs]; exact hd
  have hshown : f.shown t = [] ++ t.subtree run ++ [] := by rw [Field.shown, hs, hd]; simp
  refine replaces_among_markers (.refl h) hcl hcut hrun (fun d _ hw => ⟨run, hmem, hw⟩) lines fun front behind as haround => ?_
  have hkeeps := Field.Keeps.inRun hsome hshown haround
  rw [List.nil_append, List.append_nil] at hkeeps
  exact ⟨front, [], (List.append_nil front).symm, hkeeps, .none_made hsome t⟩

/-- A field that is one element leaves what is in it, with the lines in its first run. -/
theorem replaces_in_first_run {run : NodeId} (hs : f.shape = .simple) (hd : t.findDescendant? f.first Word.run = some run) :
    Replaces t f c before after lines ((fill lines run t).unwrap f.first) := by
  obtain ⟨hw, hne, hel, -⟩ := h.findDescendant?_eq_some hd
  have hcv : t.children c = before ++ f.first :: after := by rw [hc, (simple_of_mem_fields hf hs).2.1]; simp
  have hsome : f.run? t = some run := by rw [Field.run?, hs]; exact hd
  refine replaces_in_element (.refl h) hcv (hosts_of_isElement hel) hw hne (fun d _ hrd => within_trans hw hrd) lines
    fun pre post front behind as hcut haround => ?_
  have hshown : f.shown t = pre ++ t.subtree run ++ post := by rw [Field.shown, hs]; exact hcut
  exact ⟨pre ++ front, [], (List.append_nil _).symm, .inRun hsome hshown haround, .none_made hsome t⟩

/-- Where there is no run in it, a new one is behind what is in it. -/
theorem replaces_in_last_run (hs : f.shape = .simple) (hd : t.findDescendant? f.first Word.run = none) :
    Replaces t f c before after lines
      ((fill lines t.size ((t.create (.element Word.run []) .none).2.appendChild f.first t.size)).unwrap f.first) := by
  have hcf : t.children c = before ++ f.first :: after := by rw [hc, (simple_of_mem_fields hf hs).2.1]; simp
  have hfc := h.parent_of_mem (by rw [hcf]; simp : f.first ∈ t.children c)
  have hfirst := ((fenced_zero h).owned_field (fun _ _ => Nat.zero_le _) (Nat.zero_le _) hf f.first f.first_mem_anchors).2
  have hgets := h.gets_last hfirst (.element Word.run []) .none
  generalize (t.create (.element Word.run []) .none).2.appendChild f.first t.size = v at hgets ⊢
  have hv := hgets.relists.wellFormed
  have hp : v.parent t.size = some f.first := hv.parent_of_mem (by rw [hgets.children]; simp)
  have hcv : v.children c = before ++ f.first :: after := by
    rw [hgets.relists.children c (h.parent_lt_size hfc) (by rintro rfl; exact h.not_within_of_parent hfc (within_refl t _)), hcf]
  have hrun : Hosts v t.size := hosts_of_isElement (isElement_of_kind hgets.kind)
  have halone : v.subtree t.size = [t.size] := by rw [hv.subtree_eq, hgets.childless]; rfl
  have hnone : f.run? t = none := by rw [Field.run?, hs]; exact hd
  have hbelow : v.descendants f.first = t.descendants f.first ++ t.size :: [] := by
    have hold := hgets.relists.subtrees h (t.children f.first) (fun x hx => hx) fun x hx d hdx he =>
      h.not_within_of_parent (h.parent_of_mem hx) (he ▸ hdx)
    rw [hv.descendants_eq, hgets.children, List.flatMap_append, hold, List.flatMap_singleton, halone, h.descendants_eq]
  refine replaces_in_element hgets.relists hcv hrun (within_of_parent hp) (Nat.ne_of_gt hfirst.lt_size)
    (fun d hd hw => ?_) lines fun pre post front behind as hcut haround => ?_
  · exact absurd (hv.eq_of_within_childless hgets.childless hw) (Nat.ne_of_lt hd)
  · obtain ⟨rfl, rfl, rfl⟩ := haround.of_childless hv hgets.childless
    rw [halone, List.append_assoc] at hcut
    obtain ⟨rfl, rfl⟩ := cut_unique (hv.nodup_descendants f.first) hcut hbelow
    have hshown : f.shown t = t.descendants f.first := by rw [Field.shown, hs]
    exact ⟨_, [t.size], rfl, hshown ▸ .alone hnone, .one_made hnone hgets.kind⟩

/-- The text stands in the field's place, whatever the field's shape and its result. -/
theorem replaces_putText (s : String) : Replaces t f c before after (Text.splitAt '\n' s.toList) (putText f s t) := by
  rw [putText_eq]
  cases hs : f.shape with
  | simple =>
    cases hd : t.findDescendant? f.first Word.run with
    | some run =>
      have hlocate : Target.locateRun t f = (run, t) := by
        rw [Target.locateRun, Field.display?, hs]
        simp only [hd]
      rw [hlocate]
      exact replaces_in_first_run h hf hc _ hs hd
    | none =>
      have hlocate : Target.locateRun t f = Target.addElement t f.first Word.run := by
        rw [Target.locateRun, Field.display?, hs]
        simp only [hd]
      rw [hlocate]
      exact replaces_in_last_run h hf hc _ hs hd
  | complex =>
    cases hd : f.resultAnchor? t with
    | some run =>
      have hlocate : Target.locateRun t f = (run, t) := by
        rw [Target.locateRun, Field.display?, hs]
        simp only [hd]
      rw [hlocate]
      exact replaces_in_display h hf hc _ hs hd
    | none =>
      have hlocate : Target.locateRun t f =
          (t.size, (t.create (.element Word.run []) .none).2.insertBefore f.last t.size) := by
        rw [Target.locateRun, Field.display?, hs]
        simp only [hd]
        rfl
      rw [hlocate]
      exact replaces_in_new_run h hc _ hs hd

end exact

/-! ## What is below a node above the field -/

theorem mem_shown_of_keeps {t : Tree} {f : Field} {front behind : List NodeId} {as : List (String × String)}
    (hk : f.Keeps t front behind as) {x : NodeId} (hx : x ∈ front ∨ x ∈ behind) : x ∈ f.shown t := by
  cases hk with
  | inRun _ hcut haround =>
    rw [hcut]
    simp only [List.mem_append] at hx ⊢
    rcases hx with (hx | hx) | (hx | hx)
    · exact Or.inl (Or.inl hx)
    · exact Or.inl (Or.inr (haround.mem_subtree (Or.inl hx)))
    · exact Or.inl (Or.inr (haround.mem_subtree (Or.inr hx)))
    · exact Or.inr hx
  | alone => exact hx.resolve_right List.not_mem_nil

theorem within_of_mem_shown {t : Tree} (h : t.WellFormed) {f : Field} {x : NodeId} (hx : x ∈ f.shown t) : ∃ a ∈ f.anchors, t.Within a x := by
  unfold Field.shown at hx
  cases hs : f.shape with
  | simple =>
    rw [hs] at hx
    exact ⟨f.first, f.first_mem_anchors, (h.mem_descendants.mp hx).1⟩
  | complex =>
    rw [hs] at hx
    obtain ⟨a, ha, hx⟩ := List.mem_flatMap.mp hx
    exact ⟨a, Target.resultAnchor?_mem (Option.mem_toList.mp ha), h.mem_subtree.mp hx⟩

/-- Nothing but the text is between two texts just if what is kept beside it is empty. -/
theorem append_around_eq {a x s y b : String} : a ++ (x ++ s ++ y) ++ b = a ++ s ++ b ↔ x = "" ∧ y = "" := by
  constructor
  · intro he
    have hlength := congrArg String.length he
    simp only [String.length_append] at hlength
    constructor <;> exact String.length_eq_zero_iff.mp (by omega)
  · rintro ⟨rfl, rfl⟩
    simp

/-- How `u` has the text `s` where `t` has the field. Below `p` what stood in front of the field
    stands there still, and what stood behind it, and between the two there is what the field
    keeps, around what was added. -/
structure Exact (t u : Tree) (f : Field) (s : String) (c p : NodeId) (as : List (String × String))
    (pre front added behind post : List NodeId) : Prop where
  before : t.subtree p = pre ++ f.anchors.flatMap t.subtree ++ post
  after : u.subtree p = pre ++ (front ++ added ++ behind) ++ post
  /-- The nodes outside the field are what they were, and in their places. -/
  kind : ∀ x < t.size, u.kind x = t.kind x
  children : ∀ x < t.size, x ≠ c → (∀ a ∈ f.anchors, ¬ t.Within a x) → u.children x = t.children x
  siblings : ∀ before after, t.children c = before ++ f.anchors ++ after → ∃ ids, u.children c = before ++ ids ++ after
  /-- Added are the lines, in a new run if none displays the result. -/
  lines : ∃ made ids : List NodeId, added = made ++ ids.flatMap u.subtree ∧ Supplied f t u made ∧
    ids.map u.twig = textTwigs as (Text.splitAt '\n' s.toList)
  text : u.textContent p =
    t.textOf pre ++ (t.textOf front ++ String.ofList (s.toList.filter (· ≠ '\n')) ++ t.textOf behind) ++ t.textOf post
  /-- Of what was displayed nothing remains just if the field keeps no text. -/
  clean : u.textContent p = t.textOf pre ++ String.ofList (s.toList.filter (· ≠ '\n')) ++ t.textOf post ↔
    t.textOf front = "" ∧ t.textOf behind = ""
  breaks : (u.subtree p).countP (u.isNamed Word.lineBreak) =
    (pre ++ front ++ behind ++ post).countP (t.isNamed Word.lineBreak) + s.toList.count '\n'
  spaces : ∀ x ∈ added, ∀ line, u.kind x = .text line → ∃ w as', u.parent x = some w ∧ u.kind w = .element Word.text as' ∧
    (hasOuterBlank line.toList = true → as'.lookup Word.space = some Word.preserve)

/-- A text is put in a field's place, whatever the field's shape and its result. The nodes that
    stood in front of the field and behind it are left alone. Between them the new text stands
    where the old one stood, with a break for each newline, among all else that was displayed. -/
theorem putText_exact {t : Tree} (h : t.WellFormed) {f : Field} (hf : f ∈ t.fields root) {c : NodeId}
    {before after : List NodeId} (hc : t.children c = before ++ f.anchors ++ after) {p : NodeId} (hp : t.Within p c) (s : String) :
    ∃ as pre front added behind post, f.Keeps t front behind as ∧
      Exact t (putText f s t) f s c p as pre front added behind post := by
  obtain ⟨hrel, front, behind, as, ids, made, lineIds, hkeeps, hmade, hcu, hids, htwigs⟩ := replaces_putText h hf hc s
  generalize putText f s t = u at hrel hcu hids hmade htwigs ⊢
  have hu := hrel.wellFormed
  have hanchor : ∀ a ∈ f.anchors, t.parent a = some c := fun a ha => within_of_anchor h hc ha
  have hplt : p < t.size := h.lt_size_above (h.parent_lt_size (hanchor _ f.first_mem_anchors)) hp
  have hwithin : ∀ d, (d = c ∨ ∃ a ∈ f.anchors, t.Within a d) → t.Within c d := by
    rintro d (rfl | ⟨a, ha, hd⟩)
    · exact within_refl t d
    · exact within_trans (within_of_parent (hanchor a ha)) hd
  obtain ⟨pre, post, hbefore, hafter⟩ := hrel.exists_cut h hc hcu hwithin (fun _ => not_within_beside h hc) hp
  rw [hids] at hafter
  -- what stays is of the kinds it was of
  have hsame : ∀ x ∈ pre ++ front ++ behind ++ post, u.kind x = t.kind x := by
    intro x hx
    by_cases hfield : x ∈ front ∨ x ∈ behind
    · obtain ⟨a, ha, hw⟩ := within_of_mem_shown h (mem_shown_of_keeps hkeeps hfield)
      exact hrel.kind x (Relists.lt_size_of_within (lt_size_of_parent (hanchor a ha)) hw)
    · refine hrel.kind x (Relists.lt_size_of_within hplt (h.mem_subtree.mp ?_))
      rw [hbefore]
      simp only [List.mem_append] at hx ⊢
      tauto
  have htext : u.textContent p =
      t.textOf pre ++ (t.textOf front ++ String.ofList (s.toList.filter (· ≠ '\n')) ++ t.textOf behind) ++ t.textOf post := by
    have hpiece : ∀ xs : List NodeId, (∀ x ∈ xs, x ∈ pre ++ front ++ behind ++ post) → u.textOf xs = t.textOf xs :=
      fun xs hxs => textOf_congr fun x hx => hsame x (hxs x hx)
    rw [textContent_eq, hafter]
    simp only [textOf_append, hmade.textOf_made, textOf_of_twigs hu htwigs, Text.flatten_splitAt, String.empty_append]
    rw [hpiece pre (by simp +contextual), hpiece front (by simp +contextual), hpiece behind (by simp +contextual),
      hpiece post (by simp +contextual)]
  have hbreaks : (pre ++ front ++ behind ++ post).countP (u.isNamed Word.lineBreak) =
      (pre ++ front ++ behind ++ post).countP (t.isNamed Word.lineBreak) :=
    List.countP_congr fun x hx => by rw [isNamed_congr (hsame x hx)]
  refine ⟨as, pre, front, made ++ lineIds.flatMap u.subtree, behind, post, hkeeps, ?_⟩
  exact {
    before := hbefore
    after := hafter
    kind := hrel.kind
    children := fun x hx hxc hout => hrel.children x hx fun hP => hP.elim hxc fun ⟨a, ha, hw⟩ => hout a ha hw
    siblings := fun before' after' hc' => by
      have hcut : t.children c = before ++ f.first :: (f.others ++ after) := by rw [hc, Field.anchors]; simp
      have hcut' : t.children c = before' ++ f.first :: (f.others ++ after') := by rw [hc', Field.anchors]; simp
      obtain ⟨rfl, hrest⟩ := cut_unique (h.distinct c) hcut hcut'
      rw [List.append_cancel_left hrest] at hcu
      exact ⟨ids, hcu⟩
    lines := ⟨made, lineIds, rfl, hmade, htwigs⟩
    text := htext
    clean := by rw [htext, append_around_eq]
    breaks := by
      rw [hafter, ← hbreaks]
      simp only [List.countP_append, hmade.countP_made, countP_of_twigs hu htwigs, Text.length_splitAt]
      omega
    spaces := fun x hx line hline => by
      rcases List.mem_append.mp hx with hx | hx
      · exact absurd hline (hmade.ne_text hx line)
      · exact spaces_of_twigs hu htwigs hx hline }

namespace Greeting

def run (parent child : NodeId) : Node := ⟨.element Word.run [], some parent, [child], .none⟩

def marker (parent : NodeId) (type : MarkerType) : Node :=
  ⟨.element Word.fieldChar [(Word.fieldCharType, type.value)], some parent, [], .none⟩

def inner (name : String) (parent child : NodeId) : Node := ⟨.element name [], some parent, [child], .none⟩

def words (parent : NodeId) (data : String) : Node := ⟨.text data, some parent, [], .none⟩

/-- A field over five runs, with a run in front of it and one behind it. -/
def tree : Tree := ⟨#[⟨.container, none, [1], .none⟩, ⟨.element Word.paragraph [], some root, [2, 5, 7, 10, 12, 15, 17], .none⟩,
  run 1 3, inner Word.text 2 4, words 3 "Dear ", run 1 6, marker 5 .opening, run 1 8, inner Word.instructionText 7 9,
  words 8 "MERGEFIELD =v", run 1 11, marker 10 .separator, run 1 13, inner Word.text 12 14, words 13 "name", run 1 16,
  marker 15 .closing, run 1 18, inner Word.text 17 19, words 18 "!"]⟩

def field : Field := ⟨6, "=v", 5, [7, 10, 12, 15], .complex, true, .none⟩

theorem fields_tree : tree.fields root = [field] := by decide +kernel

/-- A field that is one element around two runs. -/
def doubled : Tree := ⟨#[⟨.container, none, [1], .none⟩, ⟨.element Word.paragraph [], some root, [2], .none⟩,
  ⟨.element Word.simpleField [(Word.fieldInstruction, "MERGEFIELD =v")], some 1, [3, 6], .none⟩, run 2 4, inner Word.text 3 5,
  words 4 "na", run 2 7, inner Word.text 6 8, words 7 "me"]⟩

def doubledField : Field := ⟨2, "=v", 2, [], .simple, true, .none⟩

end Greeting

open Greeting in
/-- Two lines take the place of the name that is displayed. -/
theorem greeting_exact : (∃ as pre front added behind post, field.Keeps tree front behind as ∧
      Exact tree (putText field "Ann \nLee" tree) field "Ann \nLee" 1 1 as pre front added behind post) ∧
    (putText field "Ann \nLee" tree).textContent 1 = "Dear Ann Lee!" :=
  ⟨putText_exact (wellFormed_of_earlier (by decide) (by decide) (by decide))
    (by rw [fields_tree]; exact List.mem_singleton_self field)
    (show tree.children 1 = [2] ++ field.anchors ++ [17] from rfl) (within_refl tree 1) _, by cbv⟩

open Greeting in
/-- The second run of the old result is kept behind the text. -/
theorem second_run_kept : doubled.WellFormed ∧ doubledField ∈ doubled.fields root ∧
    doubled.children 1 = [] ++ doubledField.anchors ++ [] ∧ doubled.isNamed Word.paragraph 1 = true ∧
    (putText doubledField "Ann" doubled).textContent 1 = "Annme" := by
  have hfields : doubled.fields root = [doubledField] := by cbv
  refine ⟨wellFormed_of_earlier (by decide) (by decide) (by decide), ?_, rfl, by decide, by cbv⟩
  rw [hfields]
  exact List.mem_singleton_self doubledField

end Splice

end MailMerge
