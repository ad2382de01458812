/-
  MailMerge.Proofs.Splice.Nesting — no paragraph comes to stand directly in a paragraph.

  An edit may give a paragraph a new parent. What it must not become a child of is a
  paragraph, and also an element of a simple field, since that will be unwrapped and its
  children go where it stood. Some more nodes may be closed to paragraphs (`K`): the scratch
  nodes whose children will go into a paragraph one day (`Unnested`).

  Markup that has to make way for a paragraph takes the place of one, and then stands where a
  paragraph stood before. Markup in the place of a run stands beside the run, so it must have
  no paragraph at its top (`Put.Fits`).

  Proved: what keeps to this is kept by every edit of a splice, and so by putting any value in
  a field's place (`unnested_insert`).
-/

import MailMerge.Proofs.Markup.Shift
import MailMerge.Proofs.Splice.Lifts
import MailMerge.Proofs.Value.Reach

namespace MailMerge

def Kind.name? : Kind → Option String
  | .element name _ => some name
  | _ => none

namespace Tree

theorem kind_twigTo (t : Tree) (n : Nat) (id : NodeId) : (t.twigTo n id).kind = t.kind id := by cases n <;> rfl

theorem Copied.kind {t u : Tree} {w : Twig} {copy : NodeId} (h : Copied t w copy u) : u.kind copy = w.kind := by
  rw [← h.twig]
  exact (kind_twigTo u u.size copy).symm

theorem name?_eq (t : Tree) (id : NodeId) : t.name? id = (t.kind id).name? := by
  unfold name?
  cases t.kind id <;> rfl

/-- Some paragraph stands directly in a paragraph or in the element of a simple field. -/
def misplacesParagraph (t : Tree) : Bool :=
  (List.range t.size).any fun x => t.isNamed Word.paragraph x &&
    (t.parent x).any fun p => t.isNamed Word.paragraph p || t.isNamed Word.simpleField p

theorem misplacesParagraph_eq_false {t : Tree} : t.misplacesParagraph = false ↔ ∀ x p, t.parent x = some p →
    t.isNamed Word.paragraph x = true → t.isNamed Word.paragraph p = false ∧ t.isNamed Word.simpleField p = false := by
  simp only [misplacesParagraph, List.any_eq_false, List.mem_range, Bool.and_eq_true, not_and, Bool.not_eq_true,
    Option.any_eq_false, Bool.or_eq_false_iff]
  exact ⟨fun h x p hp hx => h x (lt_size_of_parent hp) hx p hp, fun h x _ hx p hp => h x p hp hx⟩

/-- No paragraph may stand directly in it. -/
def Bars (t : Tree) (K : NodeId → Prop) (x : NodeId) : Prop :=
  t.isNamed Word.paragraph x = true ∨ t.isNamed Word.simpleField x = true ∨ K x

/-- No paragraph stands where none may stand. -/
structure Unnested (K : NodeId → Prop) (t : Tree) : Prop where
  lt_size : ∀ x p, t.parent x = some p → p < t.size
  known : ∀ x, K x → x < t.size
  free : ∀ x p, t.parent x = some p → t.isNamed Word.paragraph x = true → ¬ t.Bars K p

variable {K : NodeId → Prop} {t u : Tree}

theorem bars_congr {x : NodeId} (h : u.name? x = t.name? x) : u.Bars K x ↔ t.Bars K x := by
  rw [Bars, Bars, isNamed_of_name? h, isNamed_of_name? h]

theorem WellFormed.unnested (h : t.WellFormed) (hm : t.misplacesParagraph = false) : Unnested (fun _ => False) t where
  lt_size x p hp := h.parent_lt_size hp
  known _ hx := hx.elim
  free x p hp hx := by
    obtain ⟨hpar, hfld⟩ := misplacesParagraph_eq_false.mp hm x p hp hx
    rintro (hb | hb | hb)
    · rw [hpar] at hb; cases hb
    · rw [hfld] at hb; cases hb
    · exact hb

theorem Unnested.mono {K' : NodeId → Prop} (h : Unnested K' t) (hK : ∀ x, K x → K' x) : Unnested K t where
  lt_size := h.lt_size
  known x hx := h.known x (hK x hx)
  free x p hp hx hb := h.free x p hp hx (hb.imp_right (Or.imp_right (hK p)))

/-- It is enough to look at the nodes that get a parent. -/
theorem Unnested.step (h : Unnested K t) (hg : t.size ≤ u.size) (hname : ∀ x < t.size, u.name? x = t.name? x)
    (hp : ∀ x p, u.parent x = some p →
      t.parent x = some p ∨ p < u.size ∧ (u.isNamed Word.paragraph x = true → ¬ u.Bars K p)) : Unnested K u where
  lt_size x p hx := (hp x p hx).elim (fun hx => Nat.lt_of_lt_of_le (h.lt_size x p hx) hg) And.left
  known x hx := Nat.lt_of_lt_of_le (h.known x hx) hg
  free x p hx hpar := by
    rcases hp x p hx with hx | ⟨-, hfree⟩
    · rw [isNamed_of_name? (hname x (lt_size_of_parent hx))] at hpar
      rw [bars_congr (hname p (h.lt_size x p hx))]
      exact h.free x p hx hpar
    · exact hfree hpar

/-- A node put behind another gets its parent, or stays where it is. -/
theorem parent_insertAfter_self {t : Tree} {anchor x p : NodeId} (hp : (t.insertAfter anchor x).parent x = some p) :
    t.parent x = some p ∨ t.parent anchor = some p := by
  unfold insertAfter insertBeside at hp
  split at hp
  · exact Or.inl hp
  · split at hp
    · exact Or.inl hp
    · next q hq =>
      simp only at hp
      split at hp
      · rw [parent_mapChildren, parent_setParent] at hp
        split at hp
        · exact Or.inr (hq.trans hp)
        · rw [parent_detach_self] at hp
          cases hp
      · rw [parent_detach_self] at hp
        cases hp

namespace Unnested

variable (h : Unnested K t)

include h

/-! ## Single edits -/

theorem create (k : Kind) (s : Span) : Unnested K (t.create k s).2 := by
  refine h.step (by rw [size_create]; exact Nat.le_succ _) (fun x hx => name?_congr ?_) fun x p hp => Or.inl (by rwa [parent_create] at hp)
  rw [kind_create, if_neg (Nat.ne_of_lt hx)]

theorem detachAll (ids : List NodeId) : Unnested K (t.detachAll ids) := by
  refine h.step (stays_detachAll 0 t ids).grows (fun x _ => name?_congr (kind_detachAll t ids x)) fun x p hp => Or.inl ?_
  rw [parent_detachAll] at hp
  split at hp
  · cases hp
  · exact hp

theorem detach (x : NodeId) : Unnested K (t.detach x) := h.detachAll [x]

theorem setKind {id : NodeId} {k : Kind} (hk : k.name? = (t.kind id).name?) : Unnested K (t.setKind id k) := by
  refine h.step (Nat.le_of_eq (size_setKind t id k).symm) (fun x _ => ?_) fun x p hp => Or.inl (by rwa [parent_setKind] at hp)
  rw [name?_eq, name?_eq, kind_setKind]
  split
  · next hx => rw [hx.1, hk]
  · rfl

theorem setAttribute (id : NodeId) (key value : String) : Unnested K (t.setAttribute id key value) := by
  unfold Tree.setAttribute
  split
  · next hk => exact h.setKind (by rw [hk]; rfl)
  · exact h

section moved

variable {x : NodeId}

theorem link {p : NodeId} (hp : p < t.size) (hx : t.isNamed Word.paragraph x = true → ¬ t.Bars K p)
    (place : List NodeId → List NodeId) : Unnested K ((t.setParent x (some p)).mapChildren p place) := by
  have hname : ∀ y, ((t.setParent x (some p)).mapChildren p place).name? y = t.name? y := fun y =>
    name?_congr (by rw [kind_mapChildren, kind_setParent])
  refine h.step (by rw [size_mapChildren, size_setParent]) (fun y _ => hname y) fun y q hq => ?_
  rw [parent_mapChildren, parent_setParent] at hq
  split at hq
  · next hy =>
    cases hq
    rw [size_mapChildren, size_setParent, isNamed_of_name? (hname y), bars_congr (hname p), hy.1]
    exact Or.inr ⟨hp, hx⟩
  · exact Or.inl hq

theorem appendChild {p : NodeId} (hp : p < t.size) (hx : t.isNamed Word.paragraph x = true → ¬ t.Bars K p) :
    Unnested K (t.appendChild p x) := by
  have hname : ∀ y, (t.detach x).name? y = t.name? y := fun y => name?_congr (kind_detach t x y)
  refine (h.detach x).link (by rwa [size_detach]) ?_ _
  rwa [isNamed_of_name? (hname x), bars_congr (hname p)]

theorem prependChild {p : NodeId} (hp : p < t.size) (hx : t.isNamed Word.paragraph x = true → ¬ t.Bars K p) :
    Unnested K (t.prependChild p x) := by
  have hname : ∀ y, (t.detach x).name? y = t.name? y := fun y => name?_congr (kind_detach t x y)
  refine (h.detach x).link (by rwa [size_detach]) ?_ _
  rwa [isNamed_of_name? (hname x), bars_congr (hname p)]

theorem insertBeside {anchor : NodeId} (hx : t.isNamed Word.paragraph x = true → ∀ p, t.parent anchor = some p → ¬ t.Bars K p)
    (place : NodeId → NodeId → List NodeId → List NodeId) : Unnested K (insertBeside place t anchor x) := by
  have hname : ∀ y, (t.detach x).name? y = t.name? y := fun y => name?_congr (kind_detach t x y)
  unfold Tree.insertBeside
  split
  · exact h
  · cases hp : t.parent anchor with
    | none => exact h
    | some p =>
      simp only
      split
      · refine (h.detach x).link (by rw [size_detach]; exact h.lt_size _ _ hp) ?_ _
        rw [isNamed_of_name? (hname x), bars_congr (hname p)]
        exact fun hpar => hx hpar p hp
      · exact h.detach x

end moved

/-- A node with another name than a paragraph may be made anywhere. -/
theorem createBelow {name : String} (hname : name ≠ Word.paragraph) {p : NodeId} (hp : p < t.size) :
    Unnested K ((t.create (.element name []) .none).2.appendChild p t.size) := by
  refine (h.create _ _).appendChild (by rw [size_create]; exact Nat.lt_succ_of_lt hp) fun hpar => ?_
  rw [isNamed, name?, kind_create, if_pos rfl] at hpar
  exact absurd (Option.some.inj (beq_iff_eq.mp hpar)) hname

theorem insertCreated {name : String} (hname : name ≠ Word.paragraph) (anchor : NodeId)
    (place : NodeId → NodeId → List NodeId → List NodeId) :
    Unnested K (Tree.insertBeside place (t.create (.element name []) .none).2 anchor t.size) := by
  refine (h.create _ _).insertBeside (fun hpar => ?_) place
  rw [isNamed, name?, kind_create, if_pos rfl] at hpar
  exact absurd (Option.some.inj (beq_iff_eq.mp hpar)) hname

theorem setText (id : NodeId) (data : String) : Unnested K (t.setText id data) := by
  unfold Tree.setText
  split
  · next hk => exact h.setKind (by rw [hk]; rfl)
  · next hk => exact h.setKind (by rw [hk]; rfl)
  · next hk =>
    have hcut := h.detachAll (t.children id)
    have hel : t.isElement id = true := by rw [isElement, name?, hk]; rfl
    have hid : id < (t.detachAll (t.children id)).size :=
      Nat.lt_of_lt_of_le (lt_size_of_isElement hel) (stays_detachAll 0 t _).grows
    refine (hcut.create _ _).appendChild (by rw [size_create]; exact Nat.lt_succ_of_lt hid) fun hpar => ?_
    have htext : ((t.detachAll (t.children id)).create (.text data) .none).2.kind (t.detachAll (t.children id)).size = .text data := by
      rw [kind_create, if_pos rfl]
    exact absurd ((isNamed_of_kind htext _).symm.trans hpar) Bool.false_ne_true
  · exact h

/-! ## Several nodes at once -/

theorem insertAllAfter {anchor : NodeId} {ids : List NodeId} (hids : (∃ x ∈ ids, t.isNamed Word.paragraph x = true) →
    ∀ y ∈ anchor :: ids, ∀ p, t.parent y = some p → ¬ t.Bars K p) : Unnested K (t.insertAllAfter anchor ids) := by
  induction ids generalizing t anchor with
  | nil => exact h
  | cons x ids ih =>
    have hname : ∀ y, (t.insertAfter anchor x).name? y = t.name? y := fun y =>
      name?_congr (kind_insertAllAfter t anchor [x] y)
    have hone : Unnested K (t.insertAfter anchor x) :=
      h.insertBeside (fun hpar => hids ⟨x, List.mem_cons_self, hpar⟩ anchor List.mem_cons_self) _
    refine ih hone ?_
    rintro ⟨z, hz, hpar⟩ y hy p hp
    rw [isNamed_of_name? (hname z)] at hpar
    have hall := hids ⟨z, List.mem_cons_of_mem x hz, hpar⟩
    rw [bars_congr (hname p)]
    by_cases hyx : y = x
    · -- the node moved stands beside the anchor, or where it stood
      subst hyx
      rcases parent_insertAfter_self hp with hp | hp
      · exact hall y (List.mem_cons_of_mem anchor hy) p hp
      · exact hall anchor List.mem_cons_self p hp
    · rw [parent_insertAfter_of_ne t anchor hyx] at hp
      exact hall y (List.mem_cons_of_mem anchor hy) p hp

/-- What comes out of a simple field is no paragraph. -/
theorem unwrap (hw : t.WellFormed) {id : NodeId} (hid : t.isNamed Word.simpleField id = true) : Unnested K (t.unwrap id) := by
  have hins := stays_insertAllAfter (fun x _ => Nat.zero_le x : ∀ x ∈ t.children id, 0 ≤ x) t id
  have hname : ∀ x, (t.unwrap id).name? x = t.name? x := fun x =>
    name?_congr (by rw [Tree.unwrap, kind_detach, kind_insertAllAfter])
  have hsize : t.size ≤ (t.unwrap id).size := by rw [Tree.unwrap, size_detach]; exact hins.grows
  refine h.step hsize (fun x _ => hname x) fun x p hp => ?_
  rw [hw.parent_unwrap] at hp
  split at hp
  · cases hp
  · split at hp
    · next hx =>
      cases hp
      refine Or.inr ⟨Nat.lt_of_lt_of_le ?_ hsize, fun hpar => ?_⟩
      · cases hq : t.parent id with
        | none => exact lt_size_of_isNamed hid
        | some q => exact h.lt_size id q hq
      · rw [isNamed_of_name? (hname x)] at hpar
        exact absurd (Or.inr (Or.inl hid)) (h.free x id hx hpar)
    · exact Or.inl hp

/-! ## Copies -/

theorem copyTo (hw : t.WellFormed) {id : NodeId} (hne : id ≠ root) (n : Nat) : Unnested K (copyTo n t id).2 := by
  induction n generalizing t id with
  | zero => exact h.create _ _
  | succ n ih =>
    -- what the fold over the children keeps: the copy so far, and that no paragraph is misplaced
    have hfold : ∀ (todo : List NodeId) (ws : List Twig) (u : Tree), (∀ c ∈ todo, c ∈ t.children id) →
        Filling t (t.kind id) ws u → Unnested K u → Unnested K (todo.foldl (fun u child =>
          (Tree.copyTo n u child).2.adopt t.size (Tree.copyTo n u child).1) u) := by
      intro todo
      induction todo with
      | nil => exact fun _ _ _ _ hu => hu
      | cons c todo ihc =>
        intro ws u hin hu hunn
        have hcp := hw.parent_of_mem (hin c List.mem_cons_self)
        have hcr : c ≠ root := fun he => by rw [he, hw.top] at hcp; cases hcp
        obtain ⟨name, as, hk⟩ := kind_of_isElement ((hw.inner id c hcp).resolve_left hne)
        have hcopy := copyTo_spec hu.beyond.wellFormed hcr n
        have hcc : (Tree.copyTo n u c).2.kind (Tree.copyTo n u c).1 = t.kind c := by
          rw [hcopy.kind, kind_twigTo, hu.beyond.kind_eq (lt_size_of_parent hcp)]
        have hhost : (Tree.copyTo n u c).2.kind t.size = t.kind id := (hcopy.beyond.kind_eq hu.lt_size).trans hu.kind
        have hnext : Unnested K ((Tree.copyTo n u c).2.adopt t.size (Tree.copyTo n u c).1) := by
          refine (ih hunn hu.beyond.wellFormed hcr).link (Nat.lt_trans hu.lt_size hcopy.lt_size) (fun hpar => ?_) _
          rw [isNamed_congr hcc] at hpar
          refine fun hb => h.free c id hcp hpar ?_
          rw [Bars, isNamed_congr hhost, isNamed_congr hhost] at hb
          exact hb.imp_right (Or.imp_right fun hK => absurd (h.known _ hK) (Nat.lt_irrefl _))
        rw [hk] at hu
        have hone := hu.step hcopy
        rw [← hk] at hone
        exact ihc _ _ (fun x hx => hin x (List.mem_cons_of_mem c hx)) hone hnext
    exact hfold (t.children id) [] _ (fun _ hc => hc) (filling_create hw (t.kind id) (t.span id)) (h.create _ _)

theorem deepCopy (hw : t.WellFormed) {id : NodeId} (hne : id ≠ root) : Unnested K (t.deepCopy id).2 := h.copyTo hw hne t.size

end Unnested

end Tree

open MailMerge.Tree

variable {K : NodeId → Prop} {t u : Tree}

/-! ## Places for a replacement -/

theorem Target.unnested_locateRun (h : Unnested K t) {f : Field} (hf : f.first < t.size) : Unnested K (locateRun t f).2 := by
  unfold locateRun
  cases hd : f.display? t with
  | none => exact h.insertCreated (by decide) f.last _
  | some id =>
    cases hs : f.shape with
    | complex => exact h
    | simple =>
      rw [Field.display?, hs] at hd
      cases hd
      simp only
      cases t.findDescendant? f.first Word.run with
      | some run => exact h
      | none => exact h.createBelow (by decide) hf

theorem Target.unnested_locate (hw : t.WellFormed) (h : Unnested K t) {f : Field} (hf : f.Owned (fun x => 0 ≤ x) t) :
    Unnested K (locate t f).2 := by
  obtain ⟨-, hready⟩ := locateRun_spec (fenced_zero hw) hf
  have hrun := unnested_locateRun h (hf f.first f.first_mem_anchors).2.lt_size
  unfold locate
  generalize locateRun t f = found at hready hrun ⊢
  obtain ⟨run, u⟩ := found
  simp only at hready hrun ⊢
  cases u.findDescendant? run Word.text with
  | some text => exact hrun
  | none => exact hrun.createBelow (by decide) hready.hosts.lt_size

/-- The markers go, and what takes the place of a paragraph has been put there before. -/
theorem Target.unnested_finish (hw : t.WellFormed) (h : Unnested K t) (target : Target) {f : Field}
    (hf : f.shape = .simple → t.isNamed Word.simpleField f.first = true) : Unnested K (target.finish f t) := by
  unfold finish
  cases hs : f.shape with
  | simple => exact h.unwrap hw (hf hs)
  | complex => exact h.detachAll _

/-! ## Texts -/

theorem Tree.name?_setText (t : Tree) (id : NodeId) (data : String) {x : NodeId} (hx : x < t.size) :
    (t.setText id data).name? x = t.name? x := by
  have hkind : ∀ k : Kind, k.name? = (t.kind id).name? → (t.setKind id k).name? x = t.name? x := by
    intro k hk
    rw [name?_eq, name?_eq, kind_setKind]
    split
    · next hc => rw [hc.1, hk]
    · rfl
  unfold setText
  split
  · next hk => exact hkind _ (by rw [hk]; rfl)
  · next hk => exact hkind _ (by rw [hk]; rfl)
  · have hlt : x < (t.detachAll (t.children id)).size := Nat.lt_of_lt_of_le hx (stays_detachAll 0 t _).grows
    refine name?_congr ((kind_createBelow _ id (.text data) .none x).trans ?_)
    rw [if_neg (Nat.ne_of_lt hlt), kind_detachAll]
  · rfl

namespace Splice

/-- The element of a line has the name of the one it is a copy of. -/
theorem name?_lineElement (hw : t.WellFormed) {model : NodeId} (hne : model ≠ root) (line : List Char) :
    (lineElement t model line).2.name? (lineElement t model line).1 = t.name? model := by
  have hcopy := deepCopy_spec hw hne
  unfold lineElement
  generalize t.deepCopy model = made at hcopy ⊢
  obtain ⟨copy, u⟩ := made
  simp only at hcopy ⊢
  have hkind : u.kind copy = t.kind model := by rw [hcopy.kind, twig, kind_twigTo]
  have htext : (u.setText copy (String.ofList line)).name? copy = t.name? model := by
    rw [name?_setText u copy _ (hcopy.fst ▸ hcopy.lt_size), name?_congr hkind]
  split
  · rw [name?_setAttribute, htext]
  · exact htext

theorem unnested_lineElement (hw : t.WellFormed) (h : Unnested K t) {model : NodeId} (hne : model ≠ root) (line : List Char) :
    Unnested K (lineElement t model line).2 := by
  have hcopy := h.deepCopy hw hne
  unfold lineElement
  generalize t.deepCopy model = made at hcopy ⊢
  obtain ⟨copy, u⟩ := made
  simp only at hcopy ⊢
  split
  · exact (hcopy.setText _ _).setAttribute _ _ _
  · exact hcopy.setText _ _

/-- A line's element put behind a node. -/
theorem unnested_insertLine (hw : t.WellFormed) (h : Unnested K t) {model : NodeId} (hne : model ≠ root)
    (hpar : t.isNamed Word.paragraph model = false) (line : List Char) (anchor : NodeId) :
    Unnested K ((lineElement t model line).2.insertAfter anchor (lineElement t model line).1) := by
  refine (unnested_lineElement hw h hne line).insertBeside (fun hc => ?_) _
  rw [isNamed, name?_lineElement hw hne, ← isNamed, hpar] at hc
  cases hc

theorem unnested_addBrokenLines (hw : t.WellFormed) (h : Unnested K t) {model : NodeId} (hne : model ≠ root)
    (hlt : model < t.size) (hpar : t.isNamed Word.paragraph model = false) {anchor : NodeId} (ha : anchor < t.size)
    (lines : List (List Char)) : Unnested K (addBrokenLines model anchor t lines) := by
  induction lines generalizing t anchor with
  | nil => exact h
  | cons line lines ih =>
    have hzone := fenced_zero hw
    have hnew := hzone.create (.element Word.lineBreak []) .none
    have hbreak := hnew.zone.insertAfter (fun _ _ => Nat.zero_le _) (Nat.zero_le _)
      (hw.joinable_created (.element Word.lineBreak []) .none anchor)
    have hltb : t.size < ((t.create (.element Word.lineBreak []) .none).2.insertAfter anchor t.size).size :=
      Nat.lt_of_lt_of_le (by rw [size_create]; exact Nat.lt_succ_self _) hbreak.grows
    have hstay := (stays_create (Nat.le_refl t.size) (.element Word.lineBreak []) .none).trans
      (stays_insertAfter (Nat.le_refl t.size) _ anchor)
    have hmodel := (isNamed_congr (hstay.kind model hlt) Word.paragraph).trans hpar
    have hline := unnested_insertLine hbreak.wellFormed (h.insertCreated (by decide) anchor _) hne hmodel line t.size
    obtain ⟨hedit, -, hltc⟩ := (lineElement_spec hbreak.wellFormed hne line).edited hbreak.zone (fun _ _ => Nat.zero_le _) hltb
    have hnewer := stays_lineElement (Nat.le_trans (Nat.le_refl t.size) hstay.grows) model line
    have hall := (hstay.trans hnewer.2).trans (stays_insertAfter hnewer.1 _ t.size)
    exact ih hedit.wellFormed hline (Nat.lt_of_lt_of_le hlt hall.grows)
      ((isNamed_congr (hall.kind model hlt) Word.paragraph).trans hpar) hltc

theorem unnested_addLines (hw : t.WellFormed) (h : Unnested K t) {model : NodeId} (hne : model ≠ root)
    (hlt : model < t.size) (hpar : t.isNamed Word.paragraph model = false) (lines : List (List Char)) :
    Unnested K (addLines model t lines) := by
  cases lines with
  | nil => exact h
  | cons line lines =>
    have hline := unnested_insertLine hw h hne hpar line model
    obtain ⟨hedit, -, hltc⟩ := (lineElement_spec hw hne line).edited (fenced_zero hw) (fun _ _ => Nat.zero_le _) hlt
    have hnewer := stays_lineElement (Nat.le_refl t.size) model line
    have hall := hnewer.2.trans (stays_insertAfter hnewer.1 _ model)
    exact unnested_addBrokenLines hedit.wellFormed hline hne (Nat.lt_of_lt_of_le hlt hall.grows)
      ((isNamed_congr (hall.kind model hlt) Word.paragraph).trans hpar) hltc lines

section fields

variable (hw : t.WellFormed) (h : Unnested K t) {f : Field} (hf : f.Owned (fun x => 0 ≤ x) t)
  (hsimple : f.shape = .simple → t.isNamed Word.simpleField f.first = true)

include hw h hf hsimple

theorem unnested_putText (s : String) : Unnested K (putText f s t) := by
  obtain ⟨hloc, -, htext, hne⟩ := Target.locate_spec (fenced_zero hw) hf
  have hunn := Target.unnested_locate hw h hf
  have hstay := Target.stays_locate (Nat.le_refl t.size) f
  have hnamed := isNamed_text t f
  unfold putText
  generalize Target.locate t f = found at hloc htext hne hunn hstay hnamed ⊢
  obtain ⟨target, u⟩ := found
  simp only at hloc htext hne hunn hstay hnamed ⊢
  have hlines := edited_addLines hloc.zone hne htext.owned htext.hosts.lt_size (Text.splitAt '\n' s.toList)
  have hstays := hstay.trans (stays_addLines hstay.grows target.text (Text.splitAt '\n' s.toList))
  have hadd := unnested_addLines hloc.wellFormed hunn hne htext.hosts.lt_size
    (not_isNamed_of_isNamed hnamed (by decide)) (Text.splitAt '\n' s.toList)
  refine Target.unnested_finish (hlines.wellFormed.detach target.text) (hadd.detach target.text) target fun hs => ?_
  rw [isNamed_congr (kind_detach _ _ _), isNamed_congr (hstays.kind f.first (hf _ f.first_mem_anchors).2.lt_size)]
  exact hsimple hs

end fields

/-! ## Markup -/

theorem unnested_inheritFormatting (hw : t.WellFormed) (h : Unnested K t) (run : NodeId) (ids : List NodeId) :
    Unnested K (inheritFormatting t run ids) := by
  unfold inheritFormatting
  cases hfound : (t.elementChildren run).find? (t.isNamed Word.runProperties) with
  | none => exact h
  | some formatting =>
    have hchild := (List.mem_filter.mp (List.mem_of_find?_eq_some hfound)).1
    have hlt := hw.lt_size_of_mem hchild
    have hne : formatting ≠ root := by
      rintro rfl
      have hp := hw.parent_of_mem hchild
      rw [hw.top] at hp
      cases hp
    have hpar := not_isNamed_of_isNamed (List.find?_some hfound) (by decide : Word.runProperties ≠ Word.paragraph)
    have hruns : ∀ x ∈ (ids.flatMap t.subtree).filter (t.isNamed Word.run), Hosts t x := fun x hx =>
      hosts_of_isElement (isElement_of_isNamed (List.mem_filter.mp hx).2)
    generalize (ids.flatMap t.subtree).filter (t.isNamed Word.run) = runs at hruns
    have hfold : ∀ {u : Tree}, Beyond 0 t u → Stays t.size t u → Unnested K u → Unnested K (runs.foldl (formatRun formatting) u) := by
      induction runs with
      | nil => exact fun _ _ hu => hu
      | cons x runs ih =>
        intro u hed hstay hu
        have hx := hed.hosts (hruns x List.mem_cons_self)
        have hone : Unnested K (formatRun formatting u x) := by
          unfold formatRun
          split
          · exact hu
          · have hcopy := deepCopy_spec hed.wellFormed hne
            have hunn := hu.deepCopy hed.wellFormed hne
            generalize u.deepCopy formatting = made at hcopy hunn ⊢
            obtain ⟨copy, v⟩ := made
            simp only at hcopy hunn ⊢
            have hkind : v.kind copy = t.kind formatting := by
              rw [hcopy.kind, twig, kind_twigTo, hstay.kind formatting hlt]
            refine hunn.prependChild (Nat.lt_of_lt_of_le hx.lt_size hcopy.beyond.grows) fun hc => ?_
            rw [isNamed_congr hkind, hpar] at hc
            cases hc
        exact ih (fun y hy => hruns y (List.mem_cons_of_mem x hy))
          (hed.trans (edited_formatRun hed.zone hne (Nat.zero_le x) hx))
          (hstay.trans (stays_formatRun hstay.grows formatting x)) hone
    exact hfold (.refl (fenced_zero hw)) (.refl _ _) h

/-- Elements that are about to take a field's place. They stand in a scratch node of the tree. -/
structure Put where
  tree : Tree
  field : Field
  elements : List NodeId

/-- There is no paragraph among the elements, or they take the place of one. -/
def Put.Fits (p : Put) : Prop :=
  (∀ x ∈ p.elements, p.tree.isNamed Word.paragraph x = false) ∨
    ∃ paragraph, (Target.locate p.tree p.field).2.findAncestor? (Target.locate p.tree p.field).1.run Word.paragraph = some paragraph

theorem not_paragraph_of_allInline {ids : List NodeId} (hall : allInline t ids = true) : ∀ x ∈ ids, t.isNamed Word.paragraph x = false := by
  intro x hx
  rw [allInline, Bool.and_eq_true, List.all_eq_true] at hall
  have hname := hall.2 x hx
  cases hn : t.name? x with
  | none => rw [isNamed, hn]; rfl
  | some name =>
    rw [hn, Option.any_some] at hname
    rw [isNamed, hn, beq_eq_false_iff_ne]
    intro he
    rw [Option.some.inj he] at hname
    revert hname
    decide

theorem unnested_putElements (hw : t.WellFormed) (h : Unnested K t) {container : NodeId} (hlt : container < t.size)
    (hopen : ¬ t.Bars K container) {ids : List NodeId} (hids : ∀ x ∈ ids, t.parent x = some container) {f : Field}
    (hf : f.Owned (fun x => 0 ≤ x) t) (hsimple : f.shape = .simple → t.isNamed Word.simpleField f.first = true)
    (hapart : ∀ a ∈ f.anchors, ∀ x, t.Within container x → ¬ t.Within a x) (hfits : Put.Fits ⟨t, f, ids⟩) :
    Unnested K (putElements f ids t) := by
  have hloose := loose_locate hw hlt (fun a ha => ⟨(hf a ha).2, hapart a ha⟩) hids
  obtain ⟨hloc, hrun, -, -⟩ := Target.locate_spec (fenced_zero hw) hf
  have hunn := Target.unnested_locate hw h hf
  have hstay := Target.stays_locate (Nat.le_refl t.size) f
  have hold : ∀ x ∈ ids, x < t.size := fun x hx => lt_size_of_parent (hids x hx)
  simp only [Put.Fits] at hfits
  unfold putElements
  generalize Target.locate t f = found at hloose hloc hrun hunn hstay hfits ⊢
  obtain ⟨target, u⟩ := found
  simp only at hloose hloc hrun hunn hstay hfits ⊢
  -- beside a run there is no place for paragraphs
  have hreplaceRun : ∀ {v}, Stays t.size t v → v.WellFormed → Unnested K v → Loose v container target.run ids →
      (∀ x ∈ ids, t.isNamed Word.paragraph x = false) → Unnested K (replaceRun f target ids v) := by
    intro v hv hwf hunn hl hnone
    have hins := (fenced_zero hwf).insertAllAfter (fun _ _ => Nat.zero_le _) (fun _ _ => Nat.zero_le _)
      (hl.insertable hwf (within_refl v target.run))
    have hput : Unnested K (v.insertAllAfter target.run ids) := hunn.insertAllAfter fun ⟨x, hx, hpar⟩ => by
      rw [isNamed_congr (hv.kind x (hold x hx)), hnone x hx] at hpar
      cases hpar
    refine Target.unnested_finish (hins.wellFormed.detach target.run) (hput.detach target.run) target fun hs => ?_
    rw [isNamed_congr (kind_detach _ _ _), isNamed_congr (kind_insertAllAfter _ _ _ _),
      isNamed_congr (hv.kind f.first (hf _ f.first_mem_anchors).2.lt_size)]
    exact hsimple hs
  have hinline : allInline u ids = true → Unnested K (replaceRun f target ids (inheritFormatting u target.run ids)) := by
    intro hall
    refine hreplaceRun (hstay.trans (stays_inheritFormatting hstay.grows _ _)) ?_
      (unnested_inheritFormatting hloc.wellFormed hunn _ _) (hloose.inheritFormatting hloc.wellFormed hrun.hosts.lt_size) fun x hx => ?_
    · exact (edited_inheritFormatting (fenced_zero hloc.wellFormed) target.run fun _ _ => Nat.zero_le _).wellFormed
    · rw [← isNamed_congr (hstay.kind x (hold x hx))]
      exact not_paragraph_of_allInline hall x hx
  cases ha : u.findAncestor? target.run Word.paragraph with
  | none =>
    rw [ha] at hfits
    cases hall : allInline u ids with
    | true => exact hinline hall
    | false => exact hreplaceRun hstay hloc.wellFormed hunn hloose (hfits.resolve_right fun ⟨_, he⟩ => nomatch he)
  | some paragraph =>
    cases hall : allInline u ids with
    | true => exact hinline hall
    | false =>
      obtain ⟨hnamed, -, -, -⟩ := hloc.wellFormed.findAncestor?_eq_some ha
      refine (hunn.insertAllAfter fun _ y hy p hp => ?_).detach paragraph
      rcases List.mem_cons.mp hy with rfl | hy
      · exact hunn.free y p hp hnamed
      · rw [hloose.parent y hy] at hp
        cases hp
        rwa [bars_congr (name?_congr (hstay.kind container hlt))]

section reading

variable (hw : t.WellFormed) {source : String}
  (hread : (t.create (.element fragmentName []) .none).2.readInto t.size source 0 = (.ok (), u))

include hw hread

theorem beyond_of_readInto : Beyond t.size t u ∧ u.kind t.size = .element fragmentName [] := by
  have hfetched := fetched_readInto hw source
  have hstay := stays_readInto (Nat.le_of_eq (size_create t (.element fragmentName []) .none).symm) t.size source 0
  rw [hread] at hfetched hstay
  refine ⟨hfetched.beyond, (hstay.kind t.size (Nat.lt_succ_self _)).trans ?_⟩
  rw [kind_create, if_pos rfl]

/-- Markup whose own paragraphs are well placed is read into a scratch node. -/
theorem unnested_readInto (h : Unnested K t) (hok : ∀ v, Tree.ofText source 0 = .ok v → v.misplacesParagraph = false) :
    Unnested K u := by
  obtain ⟨hbeyond, hkind⟩ := beyond_of_readInto hw hread
  obtain ⟨v, hv, hshift⟩ := shifted_of_readInto hread
  have hvw := wellFormed_of_ofText hv
  have hrule := misplacesParagraph_eq_false.mp (hok v hv)
  have hnew : ∀ {x}, t.size ≤ x → ¬ K x := fun hx hK => Nat.not_lt_of_le hx (h.known _ hK)
  refine h.step hbeyond.grows (fun x hx => name?_congr (hbeyond.kind_eq hx)) fun x p hp => ?_
  by_cases hx : x < t.size
  · rw [hbeyond.parent_eq hx] at hp
    exact Or.inl hp
  · refine Or.inr ⟨hbeyond.wellFormed.parent_lt_size hp, fun hpar => ?_⟩
    obtain ⟨y, rfl⟩ := Nat.exists_eq_add_of_le' (Nat.le_of_not_lt hx)
    rw [hshift.parent] at hp
    obtain ⟨q, hq, rfl⟩ := Option.map_eq_some_iff.mp hp
    have hy : y ≠ root := fun he => by rw [he, hvw.top] at hq; cases hq
    rw [isNamed_congr (hshift.kind y hy (lt_size_of_parent hq))] at hpar
    obtain ⟨hnopar, hnofld⟩ := hrule y q hq hpar
    by_cases hqr : q = root
    · rw [hqr]
      rintro (hb | hb | hb)
      · rw [show root + t.size = t.size from Nat.zero_add _, isNamed_of_kind hkind] at hb
        exact absurd hb (by decide)
      · rw [show root + t.size = t.size from Nat.zero_add _, isNamed_of_kind hkind] at hb
        exact absurd hb (by decide)
      · exact hnew (Nat.le_add_left _ _) hb
    · rw [Bars, isNamed_congr (hshift.kind q hqr (hvw.parent_lt_size hq)), isNamed_congr (hshift.kind q hqr (hvw.parent_lt_size hq)),
        hnopar, hnofld]
      rintro (hb | hb | hb)
      · cases hb
      · cases hb
      · exact hnew (Nat.le_add_left _ _) hb

end reading

theorem unnested_putMarkup (hw : t.WellFormed) (h : Unnested K t) {f : Field} (hf : f.Owned (fun x => 0 ≤ x) t)
    (hsimple : f.shape = .simple → t.isNamed Word.simpleField f.first = true) {source : String}
    (hok : ∀ v, Tree.ofText source 0 = .ok v → v.misplacesParagraph = false)
    (hfits : ∀ u, (t.create (.element fragmentName []) .none).2.readInto t.size source 0 = (.ok (), u) →
      Put.Fits ⟨u, f, u.elementChildren t.size⟩) (hput : (putMarkup f source t).1 = .ok ()) :
    Unnested K (putMarkup f source t).2 := by
  unfold putMarkup at hput ⊢
  simp only [createElement, create_fst] at hput ⊢
  cases hread : (t.create (.element fragmentName []) .none).2.readInto t.size source 0 with
  | mk result u =>
    rw [hread] at hput
    cases result with
    | error e => cases hput
    | ok _ =>
      obtain ⟨hbeyond, hkind⟩ := beyond_of_readInto hw hread
      have hold : ∀ a ∈ f.anchors, a < t.size := fun a ha => (hf a ha).2.lt_size
      have hfirst := hold f.first f.first_mem_anchors
      have hel : u.isElement t.size = true := isElement_of_kind hkind
      refine unnested_putElements hbeyond.wellFormed (unnested_readInto hw hread h hok) (lt_size_of_isElement hel) ?_
        (fun x hx => hbeyond.wellFormed.parent_of_mem (List.mem_filter.mp hx).1)
        (fun a ha => ⟨Nat.zero_le a, (hbeyond.edited (fenced_zero hw) fun _ _ => Nat.zero_le _).hosts (hf a ha).2⟩)
        (fun hs => by rw [isNamed_congr (hbeyond.kind_eq hfirst)]; exact hsimple hs)
        (fun a ha x hx hax => Nat.not_lt_of_le (hbeyond.zone.within (Nat.le_refl t.size) hx)
          (Fenced.lt_of_within hbeyond.zone (hold a ha) hax)) (hfits u hread)
      rintro (hb | hb | hb)
      · exact absurd ((isNamed_of_kind hkind _).symm.trans hb) (by decide)
      · exact absurd ((isNamed_of_kind hkind _).symm.trans hb) (by decide)
      · exact Nat.lt_irrefl _ (h.known _ hb)

end Splice

/-! ## Values -/

/-- Markup in which some paragraph is misplaced. -/
def Content.misplacesParagraph : Content → Bool
  | .markup source =>
    match Tree.ofText source 0 with
    | .ok t => t.misplacesParagraph
    | .error _ => false
  | _ => false

open Merge Splice in
/-- Whatever value is put in a field's place, no paragraph gets misplaced, as long as markup fits. -/
theorem unnested_insert {s s' : Session} (hw : s.tree.WellFormed) (h : Unnested K s.tree) {f : Field}
    (hf : f.Owned (fun x => 0 ≤ x) s.tree) (hsimple : f.shape = .simple → s.tree.isNamed Word.simpleField f.first = true)
    {v : Value} (hok : v.reaches Content.misplacesParagraph = false)
    (hfits : ∀ source, v = .content (.markup source) → ∀ u,
      (s.tree.create (.element fragmentName []) .none).2.readInto s.tree.size source 0 = (.ok (), u) →
        Put.Fits ⟨u, f, u.elementChildren s.tree.size⟩)
    (hrun : Statement.insert f v s = (.ok (), s')) : Unnested K s'.tree := by
  have htext : ∀ text, editTree (putText f text) s = (.ok (), s') → Unnested K s'.tree := by
    rintro text he
    cases he
    exact unnested_putText hw h hf hsimple text
  have hremove : editTree f.remove s = (.ok (), s') → Unnested K s'.tree := by
    rintro he
    cases he
    exact h.detachAll f.anchors
  cases v with
  | nil => exact hremove hrun
  | boolean b => cases b with
    | false => exact hremove hrun
    | true => exact htext _ hrun
  | content c =>
    cases c with
    | image image => exact hremove hrun
    | text text => exact htext text hrun
    | markup source =>
      have hfine : ∀ t, Tree.ofText source 0 = .ok t → t.misplacesParagraph = false := by
        intro t ht
        rw [Value.reaches, Content.misplacesParagraph, ht] at hok
        exact hok
      have hput := unnested_putMarkup hw h hf hsimple hfine (hfits source rfl)
      rw [Statement.insert, run_bind_ok (run_withTree _ s)] at hrun
      generalize putMarkup f source s.tree = put at hput hrun
      obtain ⟨result, u⟩ := put
      cases result with
      | error e => cases hrun
      | ok _ => cases hrun; exact hput rfl
  | _ => exact htext _ hrun

end MailMerge
