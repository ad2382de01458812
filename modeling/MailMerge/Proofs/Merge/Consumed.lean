/-
  MailMerge.Proofs.Merge.Consumed — fields that are used up.

  The statements of a scan take out what they were made from: blocks their bodies and their
  boundaries, insertions the element or the runs that carry the instruction. A field that is
  passed while the end of a block is looked for makes no statement of its own. It is gone in
  the end only if it is in something that leaves, and the body of a block around a picture
  does not leave. A scan is exhaustive if all such fields are in something that leaves, no
  field stands in another one, and instruction text holds nothing but character data.

  While the statements are carried out, no new node that stands in the part is live, and
  nothing new comes into a field whose insertion is still to come (`Scan.Consuming.step`).

  Proved: when all statements of an exhaustive scan have been carried out, nothing below its
  top is live (`Scan.Exhaustive.idle`).
-/

import MailMerge.Proofs.Merge.Added

namespace MailMerge

open MailMerge.Tree Merge Outline

/-! ## Scans -/

/-- A scan of what is below a node: its statements, and the boundaries they refer to. -/
structure Scan where
  tree : Tree
  top : NodeId
  statements : List Statement
  ledger : Ledger

/-- An anchor of a field spread over runs that is not behind the separator, and so never the
    one that displays the result. -/
def Field.Leads (f : Field) (t : Tree) (a : NodeId) : Prop :=
  f.shape = .complex ∧ ∃ before after, f.anchors = before ++ a :: after ∧ ∀ x ∈ before, t.holdsMarker .separator x = false

theorem Field.Leads.resultAnchor?_ne {f : Field} {t : Tree} {a : NodeId} (h : f.Leads t a) (hnd : f.anchors.Nodup) :
    f.resultAnchor? t ≠ some a := by
  obtain ⟨-, before, after, hsplit, hno⟩ := h
  rw [hsplit] at hnd
  have hout : a ∉ after := (List.nodup_cons.mp (List.nodup_append.mp hnd).2.1).1
  intro he
  rw [resultAnchor?, Option.filter_eq_some_iff] at he
  have hmem := List.mem_of_mem_head? he.1
  rw [hsplit, List.dropWhile_append_of_pos fun x hx => by rw [hno x hx]; rfl, List.dropWhile_cons] at hmem
  split at hmem
  · exact hout ((List.dropWhile_sublist _).subset (List.mem_of_mem_drop hmem))
  · exact hout hmem

theorem Field.Leads.run_ne {f : Field} {t : Tree} {a : NodeId} (h : f.Leads t a) (hnd : f.anchors.Nodup) (hlt : a < t.size) :
    (Target.locate t f).1.run ≠ a := by
  have hrun : (Target.locate t f).1.run = (Target.locateRun t f).1 := by
    unfold Target.locate
    generalize Target.locateRun t f = found
    obtain ⟨run, u⟩ := found
    simp only
    split <;> rfl
  have hne := h.resultAnchor?_ne hnd
  rw [hrun, Target.locateRun, display?, h.1]
  simp only
  cases hd : f.resultAnchor? t with
  | none => exact Ne.symm (Nat.ne_of_lt hlt)
  | some id =>
    rintro rfl
    exact hne hd

theorem Field.Placed.nodup_anchors {f : Field} {t : Tree} (hf : f.Placed t) (h : t.WellFormed) : f.anchors.Nodup := by
  obtain ⟨rest, hr⟩ := hf.run
  have hnd : (f.first :: t.laterElements f.first).Nodup :=
    List.nodup_cons.mpr ⟨fun hm => (h.mem_laterElements hm).2.2.2 rfl, h.nodup_laterElements _⟩
  rw [hr] at hnd
  exact (List.nodup_append.mp hnd).1

theorem Field.mem_anchors_of_leaves {f : Field} {t : Tree} {a : NodeId} (h : f.shape = .simple ∧ a = f.first ∨ f.Leads t a) :
    a ∈ f.anchors := by
  rcases h with ⟨-, rfl⟩ | ⟨-, before, after, hsplit, -⟩
  · exact f.first_mem_anchors
  · rw [hsplit]; simp

/-- Nothing new stands in the field. -/
def Field.Intact (f : Field) (t u : Tree) : Prop := ∀ a ∈ f.anchors, ∀ y, u.Within a y → y < t.size

/-- Other values than markup put text in a field's place, or nothing. -/
theorem Statement.run_insert {v : Value} (hv : ∀ source, v ≠ .content (.markup source)) (f : Field) (s : Session) :
    insert f v s = (.ok (), { s with tree := f.remove s.tree }) ∨
      ∃ text, insert f v s = (.ok (), { s with tree := Splice.putText f text s.tree }) := by
  cases v with
  | nil => exact Or.inl rfl
  | boolean b => cases b with
    | false => exact Or.inl rfl
    | true => exact Or.inr ⟨_, rfl⟩
  | content c =>
    cases c with
    | text text => exact Or.inr ⟨text, rfl⟩
    | image image => exact Or.inl rfl
    | markup source => exact absurd rfl (hv source)
  | _ => exact Or.inr ⟨_, rfl⟩

namespace Scan

/-- The fields of the statements at the top level. -/
def fields (c : Scan) : List Field := c.statements.flatMap topFields

def blocks (c : Scan) : List Block := c.statements.flatMap Statement.blocks

def Unwraps (c : Scan) (w : NodeId) : Prop := ∃ st ∈ c.statements, st.Unwraps w

/-- The nodes that leave for sure when all statements are carried out. -/
inductive Leaves (c : Scan) : NodeId → Prop
  | body {b : Block} {x : NodeId} : b ∈ c.blocks → b.kind ≠ .image → x ∈ b.body → Leaves c x
  | boundary {b : Block} {q : NodeId} : b ∈ c.blocks → q ∈ b.ownNodes → q ∉ c.ledger.pinned → Leaves c q
  | marker {b : Block} {f : Field} {a : NodeId} : b ∈ c.blocks → f = b.startField ∨ f = b.endField → a ∈ f.anchors → Leaves c a
  | lead {f : Field} {o : Operand} {a : NodeId} : .insertion f o ∈ c.statements → f.Leads c.tree a → Leaves c a

/-- The statements use up all fields that ask for something. No field stands in another one,
    and in instruction text stands nothing but character data. A field that is passed while
    the end of a block is looked for is in something that leaves, and so is all instruction
    text that is not quiet. -/
structure Exhaustive (r : Registry) (c : Scan) : Prop where
  apart : Apart c.tree c.fields
  plain : ∀ p x, c.tree.Within c.top p → c.tree.parent x = some p → c.tree.isNamed Word.instructionText p = true →
    c.tree.isElement x = false
  anchors : ∀ f ∈ c.fields, ∀ a ∈ f.anchors, a ≠ c.top ∧ c.tree.isNamed Word.instructionText a = false
  passed : ∀ f ∈ c.tree.fields c.top, f ∉ c.fields → f.shape = .simple → r.directive f.expression ≠ .nothing →
    ∃ a, c.Leaves a ∧ c.tree.Within a f.first
  text : ∀ p x, c.tree.Within c.top p → c.tree.isNamed Word.instructionText p = true → c.tree.Within p x →
    ¬ r.Quiet (c.tree.ownText x) → ∃ a, c.Leaves a ∧ c.tree.Within a x

/-- It is a scan of what is below a node that stands nowhere. -/
structure Made (r : Registry) (c : Scan) : Prop where
  wellFormed : c.tree.WellFormed
  top : c.tree.parent c.top = none
  lt_size : c.top < c.tree.size
  built : ofFields r c.tree (c.tree.fields c.top) = .ok (c.statements, c.ledger)

section exhaustive

variable {r : Registry} {c : Scan} (hc : c.Made r) (hex : c.Exhaustive r)

include hc

theorem Made.outlined : Outlined r c.tree (c.tree.fields c.top) c.statements := outlined_of_takeAll hc.built

theorem Made.owned : ∀ st ∈ c.statements, st.Owned (fun x => 0 ≤ x) c.tree :=
  Tree.Zone.owned_statements (fenced_zero hc.wellFormed) (fun _ hx => hx) (Nat.zero_le _) hc.outlined

theorem Made.mem_fields {f : Field} (hf : f ∈ c.fields) : f ∈ c.tree.fields c.top := hc.outlined.topFields_sublist.subset hf

theorem Made.within_marker {f : Field} (hf : f ∈ c.fields) : c.tree.Within c.top f.marker ∧ f.marker ≠ c.top :=
  hc.wellFormed.mem_descendants.mp (Tree.mem_fields.mp (hc.mem_fields hf)).1

theorem Made.within_top {a x : NodeId} (hx : c.tree.Within c.top x) (ha : c.tree.Within a x) : c.tree.Within c.top a := by
  rcases within_total hx ha with hw | hw
  · exact hw
  · rw [within_of_parent_none hc.top hw]
    exact within_refl _ _

include hex

/-- The anchors are elements below the top. -/
theorem Exhaustive.anchor {f : Field} (hf : f ∈ c.fields) {a : NodeId} (ha : a ∈ f.anchors) :
    c.tree.Within c.top a ∧ c.tree.isElement a = true := by
  have hplaced := placed_of_mem_fields (hc.mem_fields hf)
  have hfirst := hc.within_top (hc.within_marker hf).1 hplaced.within_marker
  have hp := hplaced.parent_anchor hc.wellFormed ha
  obtain ⟨p, hpf, hwp⟩ := (within_iff.mp hfirst).resolve_left (hex.anchors f hf _ f.first_mem_anchors).1
  refine ⟨within_parent hwp (hp.trans hpf), ?_⟩
  rcases List.mem_cons.mp ha with rfl | ha
  · exact hc.wellFormed.isElement_of_child_within (by rw [hpf]; simp) hplaced.within_marker (isElement_marker (hc.mem_fields hf))
  · exact (hc.wellFormed.mem_laterElements (hplaced.mem_others ha)).2.2.1

/-- An element stands in no instruction text. -/
theorem Exhaustive.not_instruction {a x : NodeId} (hx : c.tree.Within c.top x) (hel : c.tree.isElement x = true)
    (ha : c.tree.Within a x) (hne : x ≠ a) : c.tree.isNamed Word.instructionText a = false := by
  obtain ⟨y, hya, hyx⟩ := exists_child_of_within ha hne
  rw [Bool.eq_false_iff]
  intro hn
  have hy := hex.plain a y (hc.within_top hx ha) hya hn
  rw [hc.wellFormed.isElement_of_child_within (by rw [hya]; simp) hyx hel] at hy
  cases hy

/-- What is above the first boundary of a block is no instruction text. -/
theorem Exhaustive.not_instruction_above {b : Block} (hb : b ∈ c.blocks) {a : NodeId} (ha : c.tree.Within a b.startNode)
    (hne : a ≠ b.startNode) : c.tree.isNamed Word.instructionText a = false := by
  have hf : b.startField ∈ c.fields := (hc.outlined.mem_topFields hb).1
  have hplaced := placed_of_mem_fields (hc.mem_fields hf)
  obtain ⟨hw, hneq⟩ := (Block.bounded_of_resolve? (hc.outlined.resolves_block hb)).above_first hc.wellFormed hplaced ha hne
  obtain ⟨hfirst, hel⟩ := hex.anchor hc hf b.startField.first_mem_anchors
  exact hex.not_instruction hc hfirst hel hw (Ne.symm hneq)

/-- What is live is in a node that leaves, or it is the element of an insertion. -/
theorem Exhaustive.spent {x : NodeId} (hx : c.tree.Within c.top x) (hne : x ≠ c.top) (hl : c.tree.Live r x) :
    (∃ f o, .insertion f o ∈ c.statements ∧ f.shape = .simple ∧ x = f.first) ∨ ∃ a, c.Leaves a ∧ c.tree.Within a x := by
  cases hl with
  | element hn ha hacts =>
    obtain ⟨f, hf, hshape, rfl, hd⟩ := exists_field_of_acts hc.wellFormed hx hne hn ha hacts
    by_cases hft : f ∈ c.fields
    · obtain ⟨st, hst, hmem⟩ := List.mem_flatMap.mp hft
      rcases mem_topFields_cases hmem with ⟨o, rfl⟩ | ⟨b, hb, hwhich⟩
      · exact Or.inl ⟨f, o, hst, hshape, rfl⟩
      · exact Or.inr ⟨f.first, .marker (List.mem_flatMap.mpr ⟨st, hst, hb⟩) hwhich f.first_mem_anchors, within_refl _ _⟩
    · exact Or.inr (hex.passed f hf hft hshape hd)
  | text hn hw hq => exact Or.inr (hex.text _ x (hc.within_top hx hw) hn hw hq)

end exhaustive

/-! ## One statement after the other -/

/-- What holds while the statements of a scan are carried out: of the new nodes none that
    stands below the top is live. -/
structure Consuming (r : Registry) (c : Scan) (env : Environment) (s : Session) : Prop where
  scan : InScan c.Unwraps c.tree c.statements env s
  kind : ∀ x < c.tree.size, c.tree.isNamed Word.pictureProperties x = false → c.tree.isNamed Word.blip x = false →
    s.tree.kind x = c.tree.kind x
  added : ∀ y, c.tree.size ≤ y → s.tree.Within c.top y → ¬ s.tree.Live r y

section steps

variable {r : Registry} {c : Scan} (hc : c.Made r) (hex : c.Exhaustive r) {env : Environment} {s s' : Session}
  (hs : c.Consuming r env s)

include hs

theorem Consuming.lt_size {x : NodeId} (hx : x < c.tree.size) : x < s.tree.size := Nat.lt_of_lt_of_le hx hs.scan.lifted.grows

theorem Consuming.isNamed {x : NodeId} (hx : x < c.tree.size) (name : String) : s.tree.isNamed name x = c.tree.isNamed name x :=
  isNamed_of_name? (hs.scan.lifted.name x hx) name

include hc

theorem Consuming.within {a x : NodeId} (hx : x < c.tree.size) (hw : s.tree.Within a x) : c.tree.Within a x :=
  hs.scan.lifted.within hc.wellFormed hx hw

/-- What is live in the end was so in the beginning. -/
theorem Consuming.live_old {x : NodeId} (hx : x < c.tree.size) (hl : s.tree.Live r x) : c.tree.Live r x := by
  refine hl.of_old (hs.scan.lifted.name x hx) (fun a hn ha => ?_) (hs.kind x hx)
  have hw := hs.within hc hx ha
  exact ⟨hs.isNamed (hc.wellFormed.lt_size_above hx hw) _ ▸ hn, hw⟩

/-- No separator has come into the field. -/
theorem Consuming.leads {f : Field} (hintact : f.Intact c.tree s.tree) {a : NodeId} (ha : f.Leads c.tree a) : f.Leads s.tree a := by
  obtain ⟨hshape, before, after, hsplit, hno⟩ := ha
  refine ⟨hshape, before, after, hsplit, fun x hx => ?_⟩
  rw [Bool.eq_false_iff]
  intro hyes
  obtain ⟨y, hy, hmark⟩ := List.any_eq_true.mp hyes
  have hw := hs.scan.wellFormed.mem_subtree.mp hy
  have hlt := hintact x (by rw [hsplit]; simp [hx]) y hw
  have hn : s.tree.isNamed Word.fieldChar y = true := (Bool.and_eq_true_iff.mp hmark).1
  rw [hs.isNamed hlt] at hn
  have hkind := hs.kind y hlt (not_isNamed_of_isNamed hn (by decide)) (not_isNamed_of_isNamed hn (by decide))
  rw [Tree.isMarker, isNamed_congr hkind, attribute?_congr hkind] at hmark
  have hyes : c.tree.holdsMarker .separator x = true :=
    List.any_eq_true.mpr ⟨y, hc.wellFormed.mem_subtree.mpr (hs.within hc hlt hw), hmark⟩
  rw [hno x hx] at hyes
  cases hyes

variable {expand : NodeId → Merge Unit} (hexp : Expands expand) {st : Statement} (hst : st ∈ c.statements)
  (hrun : st.evaluate expand s = (.ok (), s'))

include hexp hst hrun

/-- A statement leaves what was there as it was; it remains to look at what it adds. -/
theorem Consuming.next (hnew : ∀ y, s.tree.size ≤ y → s'.tree.Within c.top y → ¬ s'.tree.Live r y) : c.Consuming r env s' := by
  have hown := hs.scan.owned st hst
  have hlift := Statement.lifted_evaluate hexp hs.scan.wellFormed hown hrun
  have hkind : ∀ x < s.tree.size, s.tree.isNamed Word.pictureProperties x = false → s.tree.isNamed Word.blip x = false →
      s'.tree.kind x = s.tree.kind x := fun x hx =>
    Statement.kind_evaluate hexp hs.scan.wellFormed hown hrun hx
  refine ⟨hs.scan.next hexp hc.wellFormed (fun st' hst' w hw => ⟨st', hst', hw⟩) hst hrun, fun x hx hp hb => ?_,
    fun y hy hw hl => ?_⟩
  · rw [hkind x (hs.lt_size hx) (hs.isNamed hx _ ▸ hp) (hs.isNamed hx _ ▸ hb), hs.kind x hx hp hb]
  · by_cases hlt : y < s.tree.size
    · have hup : ∀ {a}, s'.tree.Within a y → s.tree.Within a y := fun ha => hlift.within hs.scan.wellFormed hlt ha
      refine hs.added y hy (hup hw) (hl.of_old (hlift.name y hlt) (fun a hn ha => ⟨?_, hup ha⟩) (hkind y hlt))
      have halt := hs.scan.wellFormed.lt_size_above hlt (hup ha)
      exact isNamed_of_name? (hlift.name a halt) _ ▸ hn
    · exact hnew y (Nat.le_of_not_lt hlt) hw hl

end steps

/-! ## Insertions -/

section insertions

variable {r : Registry} {c : Scan} (hc : c.Made r) (hex : c.Exhaustive r) {env : Environment} {s s' : Session}
  (hs : c.Consuming r env s) {f : Field} {o : Operand} (hst : .insertion f o ∈ c.statements)
  (hintact : f.Intact c.tree s.tree) {v : Value} (hv : ∀ source, v ≠ .content (.markup source))
  (hins : Statement.insert f v s = (.ok (), s'))

include hc hex hs hst hintact

/-- What may get something added is in no instruction text. -/
theorem Consuming.places : f.Places s.tree fun p => p < c.tree.size ∧
    ∀ a, c.tree.Within a p → c.tree.isNamed Word.instructionText a = false := by
  have hf : f ∈ c.fields := List.mem_flatMap.mpr ⟨_, hst, List.mem_singleton_self f⟩
  have hin : ∀ a ∈ f.anchors, ∀ x, s.tree.Within a x → x < c.tree.size ∧ c.tree.Within c.top x := fun a ha x hw => by
    have hx := hintact a ha x hw
    exact ⟨hx, within_trans (hex.anchor hc hf ha).1 (hs.within hc hx hw)⟩
  refine ⟨fun a ha => ?_, fun a ha x hw hn => ?_, fun a ha x p hw hel hp => ?_⟩
  · obtain ⟨htop, hel⟩ := hex.anchor hc hf ha
    refine ⟨lt_size_of_isElement hel, fun a' hw => ?_⟩
    by_cases he : a = a'
    · exact he ▸ (hex.anchors f hf a ha).2
    · exact hex.not_instruction hc htop hel hw he
  · obtain ⟨hx, htop⟩ := hin a ha x hw
    rw [hs.isNamed hx] at hn
    refine ⟨hx, fun a' hw => ?_⟩
    by_cases he : x = a'
    · exact he ▸ not_isNamed_of_isNamed hn (by decide)
    · exact hex.not_instruction hc htop (isElement_of_isNamed hn) hw he
  · obtain ⟨hx, htop⟩ := hin a ha x hw
    obtain ⟨w, hxw, hpw⟩ := (hs.scan.lifted.up x hx p hp).exists_parent
    refine ⟨hc.wellFormed.lt_size_above (hc.wellFormed.parent_lt_size hxw) hpw, fun a' hw => ?_⟩
    have hel : c.tree.isElement x = true := by rwa [Tree.isElement, ← hs.scan.lifted.name x hx]
    refine hex.not_instruction hc htop hel (within_parent (within_trans hw hpw) hxw) ?_
    rintro rfl
    exact hc.wellFormed.not_within_of_parent hxw (within_trans hw hpw)

include hv hins

theorem Consuming.added_insertion (hlift : Lifted c.Unwraps c.tree s'.tree) {y : NodeId} (hy : s.tree.size ≤ y)
    (hw : s'.tree.Within c.top y) : ¬ s'.tree.Live r y := by
  have htop := hs.lt_size hc.lt_size
  rcases Statement.run_insert hv f s with he | ⟨text, he⟩ <;> rw [he] at hins <;> cases hins
  · rcases within_iff.mp hw with rfl | ⟨p, hp, -⟩
    · exact absurd htop (Nat.not_lt_of_le hy)
    · simp only [Field.remove, parent_detachAll] at hp
      split at hp
      · cases hp
      · exact absurd (lt_size_of_parent hp) (Nat.not_lt_of_le hy)
  · have hin := Splice.inert_putText hs.scan.wellFormed htop ((hs.scan.owned _ hst).field f o rfl) (hs.places hc hex hst hintact) text
    refine hin.not_live htop (fun p hp a ha => ?_) hy hw
    have hwp := hlift.within hc.wellFormed hp.1 ha
    rw [isNamed_of_name? (hlift.name a (hc.wellFormed.lt_size_above hp.1 hwp))]
    exact hp.2 a hwp

/-- The field's own element leaves, and of its anchors those that never display the result. -/
theorem Consuming.parent_insertion {a : NodeId} (ha : f.shape = .simple ∧ a = f.first ∨ f.Leads c.tree a) :
    s'.tree.parent a = none := by
  have hf : f ∈ c.fields := List.mem_flatMap.mpr ⟨_, hst, List.mem_singleton_self f⟩
  have hmem := Field.mem_anchors_of_leaves ha
  rcases Statement.run_insert hv f s with he | ⟨text, he⟩ <;> rw [he] at hins <;> cases hins
  · simp only [Field.remove, parent_detachAll, if_pos hmem]
  · simp only [Splice.putText, Target.finish]
    rcases ha with ⟨hshape, rfl⟩ | hleads
    · rw [hshape]
      exact parent_detach_self _ _
    · rw [hleads.1]
      simp only [parent_detachAll]
      rw [if_pos]
      have hnd := (placed_of_mem_fields (hc.mem_fields hf)).nodup_anchors hc.wellFormed
      have hlt := hs.lt_size (lt_size_of_isElement (hex.anchor hc hf hmem).2)
      exact List.mem_filter.mpr ⟨hmem, bne_iff_ne.mpr (Ne.symm ((hs.leads hc hintact hleads).run_ne hnd hlt))⟩

omit hintact in
/-- An insertion adds nothing to another field. -/
theorem Consuming.intact_insertion {g : Field} (hg : g ∈ c.fields) (hne : g ≠ f) (hgi : g.Intact c.tree s.tree) :
    g.Intact c.tree s'.tree := by
  have hf : f ∈ c.fields := List.mem_flatMap.mpr ⟨_, hst, List.mem_singleton_self f⟩
  have hlt : ∀ {g : Field}, g ∈ c.fields → ∀ a ∈ g.anchors, a < c.tree.size := fun hg a ha =>
    lt_size_of_isElement (hex.anchor hc hg ha).2
  have howned := (hs.scan.owned _ hst).field f o rfl
  have hzone : Zone (fun x => (∃ a ∈ f.anchors, s.tree.Within a x) ∨ s.tree.size ≤ x)
      (fun x => ((∃ a ∈ f.anchors, s.tree.Within a x) ∨ s.tree.size ≤ x) ∨ ∃ a ∈ f.anchors, s.tree.parent a = some x) s.tree :=
    hs.scan.wellFormed.zone_within (fun _ => Or.inl) fun a ha _ hp => Or.inr ⟨a, ha, hp⟩
  have hed := edits_insert hzone (fun a ha => ⟨Or.inl ⟨a, ha, within_refl _ a⟩, (howned a ha).2⟩) v
    fun ⟨source, he⟩ => absurd he (hv source)
  rw [hins] at hed
  intro a ha y hw
  refine hgi a ha y (hed.tree.within_of_untouched hs.scan.wellFormed (fun x hax => ?_) hw)
  have hx := hgi a ha x hax
  have hax' := hs.within hc hx hax
  rintro ((⟨a', ha', hw'⟩ | hle) | ⟨a', ha', hp⟩)
  · -- both anchors are above the node, so one stands in the other
    exact hex.apart g hg f hf hne a ha a' ha' (within_total hax' (hs.within hc hx hw'))
  · exact Nat.not_lt_of_le hle (hs.lt_size hx)
  · have hup := hs.within hc (hlt hf a' ha') (within_parent hax hp)
    exact hex.apart g hg f hf hne a ha a' ha' (Or.inl hup)

end insertions

/-! ## Blocks -/

section blocks

variable {r : Registry} {c : Scan} (hc : c.Made r) (hex : c.Exhaustive r) {env : Environment} {s s' : Session}
  (hs : c.Consuming r env s) {expand : NodeId → Merge Unit} (hexp : Expands expand) {st : Statement} (hst : st ∈ c.statements)
  (hne : ∀ f o, st ≠ .insertion f o) (hrun : st.evaluate expand s = (.ok (), s'))

include hc hex hs hexp hst hne hrun

/-- The content of blocks is put where no instruction text is above, so it stays idle. -/
theorem Consuming.added_block (hidle : ∀ b s', st.Copies expand s b s' → LeavesIdle r expand b s') {y : NodeId}
    (hy : s.tree.size ≤ y) (hw : s'.tree.Within c.top y) : ¬ s'.tree.Live r y := by
  have hown := hs.scan.owned st hst
  have hlift := Statement.lifted_evaluate hexp hs.scan.wellFormed hown hrun
  obtain ⟨before, b, after, content, made, hm, ⟨x, hx, hxy⟩, -⟩ :=
    Statement.exists_content hexp hs.scan.wellFormed hown hrun hne (hs.lt_size hc.lt_size) hy hw
  have hmem : b ∈ st.blocks := by rw [hm.blocks]; simp
  have hb : b ∈ c.blocks := List.mem_flatMap.mpr ⟨st, hst, hmem⟩
  have hkind : ∀ z, s'.tree.kind z = made.tree.kind z := by
    have hrun' := hrun
    rw [hm.run_evaluate] at hrun'
    cases hrun'
    intro z
    rw [Block.kind_dropAll, Block.kind_giveWay, Block.kind_dropAll]
  have hcontent := hm.idle hexp hs.scan.wellFormed (hown.blocks b hmem).inStore hidle x hx y hxy
  intro hl
  refine hcontent (hl.of_old (name?_congr (hkind y)) (fun a hn ha => ?_) fun _ _ => hkind y)
  rcases hm.within_new hexp hs.scan.wellFormed hown hrun hy ha with hmade | ⟨-, hup, hneq⟩
  · exact ⟨(isNamed_congr (hkind a) _) ▸ hn, hmade⟩
  · -- an instruction text above the place was above it from the start
    have hstart := ((hc.owned st hst).blocks b hmem).startNode.2
    have hwa := hs.within hc hstart hup
    have halt := hc.wellFormed.lt_size_above hstart hwa
    rw [isNamed_of_name? (hlift.name a (hs.lt_size halt)), hs.isNamed halt, hex.not_instruction_above hc hb hwa hneq] at hn
    cases hn

/-- Nothing of it is put into an insertion. -/
theorem Consuming.intact_block {f : Field} {o : Operand} (hf : .insertion f o ∈ c.statements) (hintact : f.Intact c.tree s.tree) :
    f.Intact c.tree s'.tree := by
  have hft : f ∈ c.fields := List.mem_flatMap.mpr ⟨_, hf, List.mem_singleton_self f⟩
  have hown := hs.scan.owned st hst
  intro a ha y hw
  have halt := lt_size_of_isElement (hex.anchor hc hft ha).2
  by_cases hy : y < s.tree.size
  · exact hintact a ha y ((Statement.lifted_evaluate hexp hs.scan.wellFormed hown hrun).within hs.scan.wellFormed hy hw)
  · obtain ⟨before, b, after, content, made, hm, -, hup, -⟩ := Statement.exists_content hexp hs.scan.wellFormed hown hrun hne
      (hs.lt_size halt) (Nat.le_of_not_lt hy) hw
    have hmem : b ∈ st.blocks := by rw [hm.blocks]; simp
    have hb : b ∈ c.blocks := List.mem_flatMap.mpr ⟨st, hst, hmem⟩
    have hwa := hs.within hc ((hc.owned st hst).blocks b hmem).startNode.2 hup
    exact absurd hwa (hc.outlined.not_within_anchor hc.wellFormed hb hex.apart hft
      (hc.outlined.insertion_ne hc.wellFormed hf hb) ha)

end blocks

/-! ## All statements -/

section runs

variable {r : Registry} {c : Scan} (hc : c.Made r) (hex : c.Exhaustive r) {env : Environment}
  (henv : env.reaches Content.isMarkup = false) {expand : NodeId → Merge Unit} (hexp : Expands expand)

include hc hex henv hexp

theorem Consuming.step {st : Statement} (hst : st ∈ c.statements) {s s' : Session} (hs : c.Consuming r env s)
    (hintact : ∀ f o, st = .insertion f o → f.Intact c.tree s.tree)
    (hidle : ∀ b s₁, st.Copies expand s b s₁ → LeavesIdle r expand b s₁) (hrun : st.evaluate expand s = (.ok (), s')) :
    c.Consuming r env s' ∧
      (∀ g o, .insertion g o ∈ c.statements → (∀ f o', st = .insertion f o' → g ≠ f) → g.Intact c.tree s.tree →
        g.Intact c.tree s'.tree) ∧
      ∀ f o, st = .insertion f o → ∀ a, f.shape = .simple ∧ a = f.first ∨ f.Leads c.tree a → s'.tree.parent a = none := by
  have hscan := hs.scan.next hexp hc.wellFormed (fun st' hst' w hw => ⟨st', hst', hw⟩) hst hrun
  by_cases hins : ∃ f o, st = .insertion f o
  · obtain ⟨f, o, rfl⟩ := hins
    obtain ⟨v, hval, hput⟩ := Statement.evaluate_insertion_eq_ok hrun
    have hv : ∀ source, v ≠ .content (.markup source) := by
      rintro source rfl
      exact Environment.evaluate_ne_markup ((hs.scan.env.reaches _).trans henv) o source hval
    have hi := hintact f o rfl
    refine ⟨hs.next hc hexp hst hrun fun y hy hw => hs.added_insertion hc hex hst hi hv hput hscan.lifted hy hw,
      fun g o' hg hne hgi => ?_, fun f' o' he a ha => ?_⟩
    · exact hs.intact_insertion hc hex hst hv hput (List.mem_flatMap.mpr ⟨_, hg, List.mem_singleton_self g⟩) (hne f o rfl) hgi
    · cases he
      exact hs.parent_insertion hc hex hst hi hv hput ha
  · have hne : ∀ f o, st ≠ .insertion f o := fun f o he => hins ⟨f, o, he⟩
    exact ⟨hs.next hc hexp hst hrun fun y hy hw => hs.added_block hc hex hexp hst hne hrun hidle hy hw,
      fun g o hg _ hgi => hs.intact_block hc hex hexp hst hne hrun hg hgi, fun f o he => absurd he (hne f o)⟩

/-- The insertions that are still to come have nothing new in them, and those that were
    carried out have left. -/
theorem Consuming.run {sts : List Statement} (hsub : ∀ st ∈ sts, st ∈ c.statements) (hnd : (sts.flatMap topFields).Nodup)
    {s s' : Session} (hs : c.Consuming r env s) (hintact : ∀ f o, .insertion f o ∈ sts → f.Intact c.tree s.tree)
    (hidle : ∀ done st rest s₁, sts = done ++ st :: rest → Statement.evaluateAll expand done s = (.ok (), s₁) →
      ∀ b s₂, st.Copies expand s₁ b s₂ → LeavesIdle r expand b s₂)
    (hrun : Statement.evaluateAll expand sts s = (.ok (), s')) :
    c.Consuming r env s' ∧ ∀ f o, .insertion f o ∈ sts → ∀ a, f.shape = .simple ∧ a = f.first ∨ f.Leads c.tree a →
      s'.tree.parent a = none := by
  induction sts generalizing s with
  | nil =>
    cases hrun
    exact ⟨hs, fun f o hf => absurd hf List.not_mem_nil⟩
  | cons st sts ih =>
    have hst := hsub st List.mem_cons_self
    have hsub' : ∀ st' ∈ sts, st' ∈ c.statements := fun st' hst' => hsub st' (List.mem_cons_of_mem st hst')
    rw [List.flatMap_cons] at hnd
    obtain ⟨s₁, hone, hrest⟩ := Statement.evaluateAll_cons_eq_ok hrun
    obtain ⟨hs₁, hintact₁, hgone⟩ := hs.step hc hex henv hexp hst (fun f o he => hintact f o (he ▸ List.mem_cons_self))
      (hidle [] st sts s rfl rfl) hone
    have hdistinct : ∀ f o g o', st = .insertion f o → .insertion g o' ∈ sts → g ≠ f := by
      rintro f o g o' rfl hg rfl
      exact (List.nodup_cons.mp hnd).1 (List.mem_flatMap.mpr ⟨_, hg, List.mem_singleton_self g⟩)
    obtain ⟨hlast, hall⟩ := ih hsub' (List.nodup_append.mp hnd).2.1 hs₁
      (fun g o hg => hintact₁ g o (hsub' _ hg) (fun f o' he => hdistinct f o' g o he hg)
        (hintact g o (List.mem_cons_of_mem st hg)))
      (fun done st' rest s₂ hsplit hdone => hidle (st :: done) st' rest s₂ (by rw [hsplit]; rfl)
        (by rw [Statement.run_evaluateAll_cons, hone]; exact hdone)) hrest
    refine ⟨hlast, fun f o hf a ha => ?_⟩
    rcases List.mem_cons.mp hf with rfl | hf
    · have hmem : a ∈ f.anchors := Field.mem_anchors_of_leaves ha
      have halt := lt_size_of_isElement (hex.anchor hc (List.mem_flatMap.mpr ⟨_, hst, List.mem_singleton_self f⟩) hmem).2
      exact (hs₁.scan.left hexp hc.wellFormed (fun st' hst' w hw => ⟨st', hst', hw⟩) hsub' hrest).2 a halt
        (Or.inr (hgone f o rfl a ha))
    · exact hall f o hf a ha

end runs

/-! ## What is left -/

section left

variable {r : Registry} {c : Scan} (hc : c.Made r) (hex : c.Exhaustive r)
  (hname : c.tree.isNamed Word.tableRow c.top = false ∧ c.tree.isNamed Word.paragraph c.top = false)
  {expand : NodeId → Merge Unit} (hexp : Expands expand) {env : Environment} {last : Session}
  (hrun : Statement.evaluateAll expand c.statements ⟨c.tree, env, c.ledger⟩ = (.ok (), last))

include hc

theorem Made.inScan (env : Environment) : InScan c.Unwraps c.tree c.statements env ⟨c.tree, env, c.ledger⟩ :=
  ⟨hc.wellFormed, .refl _ _, hc.owned, .refl env⟩

/-- What an insertion unwraps is its marker. -/
theorem Made.unwraps {w : NodeId} (hw : c.Unwraps w) : ∃ f o, .insertion f o ∈ c.statements ∧ f.shape = .simple ∧ w = f.first ∧
    f.first = f.marker ∧ c.tree.isNamed Word.simpleField w = true := by
  obtain ⟨st, hst, f, o, rfl, hshape, rfl⟩ := hw
  have hf : f ∈ c.fields := List.mem_flatMap.mpr ⟨_, hst, List.mem_singleton_self f⟩
  obtain ⟨hmarker, -, hn⟩ := simple_of_mem_fields (hc.mem_fields hf) hshape
  exact ⟨f, o, hst, hshape, rfl, hmarker, hn⟩

include hex

/-- The anchors of other fields are not unwrapped. -/
theorem Exhaustive.not_unwraps {f : Field} (hf : f ∈ c.fields)
    (hne : ∀ g o, .insertion g o ∈ c.statements → g.shape = .simple → f ≠ g) {a : NodeId} (ha : a ∈ f.anchors) : ¬ c.Unwraps a := by
  intro hw
  obtain ⟨g, o, hg, hshape, rfl, -⟩ := hc.unwraps hw
  exact hex.apart f hf g (List.mem_flatMap.mpr ⟨_, hg, List.mem_singleton_self g⟩) (hne g o hg hshape) _ ha _
    g.first_mem_anchors (Or.inl (within_refl _ _))

include hname hexp hrun

/-- What leaves stands nowhere in the end, or something around it does. -/
theorem Leaves.gone (hgone : ∀ f o, .insertion f o ∈ c.statements → ∀ a, f.Leads c.tree a → last.tree.parent a = none)
    {a : NodeId} (ha : c.Leaves a) : ∃ q, last.tree.parent q = none ∧ c.tree.Within q a ∧ ¬ c.Unwraps q ∧ q ≠ c.top := by
  have hP : ∀ st ∈ c.statements, ∀ w, st.Unwraps w → c.Unwraps w := fun st hst w hw => ⟨st, hst, hw⟩
  have hstart := hc.inScan env
  have hbound : ∀ {q : NodeId}, c.tree.isNamed Word.tableRow q = true ∨ c.tree.isNamed Word.paragraph q = true →
      ¬ c.Unwraps q ∧ q ≠ c.top := by
    intro q hq
    refine ⟨fun hw => ?_, ?_⟩
    · obtain ⟨-, -, -, -, -, -, hn⟩ := hc.unwraps hw
      rcases hq with hq | hq
      · rw [not_isNamed_of_isNamed hn (by decide)] at hq; cases hq
      · rw [not_isNamed_of_isNamed hn (by decide)] at hq; cases hq
    · rintro rfl
      rw [hname.1, hname.2] at hq
      simp at hq
  cases ha with
  | @body b x hb hk hx =>
    obtain ⟨hlater, -⟩ := Block.mem_laterElements_of_body hc.wellFormed (hc.outlined.resolves_block hb) hx
    obtain ⟨hp, hpn, hel, -⟩ := hc.wellFormed.mem_laterElements hlater
    refine ⟨a, parent_none_of_body hc.wellFormed hexp hP hstart hrun hb hk hx (lt_size_of_isElement hel), within_refl _ a,
      fun hw => ?_, ?_⟩
    · obtain ⟨g, o, hg, -, he, hmarker, -⟩ := hc.unwraps hw
      refine hc.outlined.not_within_body_of_top hc.wellFormed hb hk hx (List.mem_flatMap.mpr ⟨_, hg, List.mem_singleton_self g⟩) ?_
      rw [he, hmarker]
      exact within_refl _ _
    · rintro rfl
      exact hpn (hp.symm.trans hc.top)
  | @boundary b q hb hq hpin =>
    have hwhich : ∃ f, (f = b.startField ∧ a = b.startNode ∨ f = b.endField ∧ a = b.endNode) := by
      unfold Block.ownNodes at hq
      split at hq
      · simp only [List.mem_cons, List.not_mem_nil, or_false] at hq
        exact hq.elim (fun he => ⟨_, Or.inl ⟨rfl, he⟩⟩) fun he => ⟨_, Or.inr ⟨rfl, he⟩⟩
      · cases hq
    obtain ⟨f, hf⟩ := hwhich
    obtain ⟨hn, -⟩ := above_of_ownNode hc.wellFormed hc.built hb hq hf
    exact ⟨a, parent_none_of_ownNode hc.wellFormed hc.built hexp hP hstart rfl hrun hb hq hpin
      (hn.elim lt_size_of_isNamed lt_size_of_isNamed), within_refl _ a, hbound hn⟩
  | @marker b f _ hb hf ha =>
    have hft : f ∈ c.fields := by
      rcases hf with rfl | rfl
      · exact (hc.outlined.mem_topFields hb).1
      · exact (hc.outlined.mem_topFields hb).2
    rcases parent_none_of_anchor hc.wellFormed hc.built hexp hP hstart rfl hrun hb hf
      (fun a ha => lt_size_of_isElement (hex.anchor hc hft ha).2) with hall | ⟨q, hq, hn, hup⟩
    · refine ⟨a, hall a ha, within_refl _ a, hex.not_unwraps hc hft (fun g o hg _ he => ?_) ha, (hex.anchors f hft a ha).1⟩
      obtain ⟨hs, he'⟩ := hc.outlined.insertion_ne_bounds hc.wellFormed hg hb
      rcases hf with rfl | rfl
      · exact hs he.symm
      · exact he' he.symm
    · exact ⟨q, hq, hup a ha, hbound hn⟩
  | @lead f o _ hf ha =>
    have hft : f ∈ c.fields := List.mem_flatMap.mpr ⟨_, hf, List.mem_singleton_self f⟩
    have hmem := Field.mem_anchors_of_leaves (Or.inr ha)
    refine ⟨a, hgone f o hf a ha, within_refl _ a, hex.not_unwraps hc hft (fun g _ _ hshape he => ?_) hmem,
      (hex.anchors f hft a hmem).1⟩
    rw [← he, ha.1] at hshape
    cases hshape

/-- All that is live is used up. -/
theorem Exhaustive.idle (henv : env.reaches Content.isMarkup = false)
    (hidle : ∀ done st rest s₁, c.statements = done ++ st :: rest →
      Statement.evaluateAll expand done ⟨c.tree, env, c.ledger⟩ = (.ok (), s₁) →
      ∀ b s₂, st.Copies expand s₁ b s₂ → LeavesIdle r expand b s₂) : last.tree.Idle r c.top := by
  have hstart := hc.inScan env
  have hold : ∀ {a y : NodeId}, a < c.tree.size → c.tree.Within a y → y < c.tree.size := by
    intro a y ha hw
    by_cases he : y = a
    · exact he ▸ ha
    · exact lt_size_of_within hw he
  have hnd : (c.statements.flatMap topFields).Nodup :=
    (((hc.wellFormed.nodup_markers c.top).sublist (hc.outlined.topFields_sublist.map _)).of_map _)
  have hfirst : c.Consuming r env ⟨c.tree, env, c.ledger⟩ :=
    ⟨hstart, fun _ _ _ _ => rfl, fun y hy hw => absurd (hold hc.lt_size hw) (Nat.not_lt_of_le hy)⟩
  obtain ⟨hlast, hgone⟩ := hfirst.run hc hex henv hexp (fun _ hst => hst) hnd
    (fun f o hf a ha y hw => hold (lt_size_of_isElement
      (hex.anchor hc (List.mem_flatMap.mpr ⟨_, hf, List.mem_singleton_self f⟩) ha).2) hw) hidle hrun
  intro x hw hne hl
  by_cases hx : x < c.tree.size
  · have htop : last.tree.parent c.top = none :=
      (hstart.left hexp hc.wellFormed (fun st hst w hw => ⟨st, hst, hw⟩) (fun _ hst => hst) hrun).2 _ hc.lt_size (Or.inr hc.top)
    rcases hex.spent hc (hlast.within hc hx hw) hne (hlast.live_old hc hx hl) with ⟨f, o, hf, hshape, rfl⟩ | ⟨a, ha, hax⟩
    · exact hne (within_of_parent_none (hgone f o hf _ (Or.inl ⟨hshape, rfl⟩)) hw).symm
    · obtain ⟨q, hq, hqa, hkeep, hqt⟩ := ha.gone hc hex hname hexp hrun fun f o hf a ha => hgone f o hf a (Or.inr ha)
      have hqx := hlast.scan.lifted.within_of_top hc.wellFormed hc.top hx hw (within_trans hqa hax) hkeep
      rcases within_total hw hqx with hwt | hwq
      · exact hqt (within_of_parent_none hq hwt).symm
      · exact hqt (within_of_parent_none htop hwq)
  · exact hlast.added x (Nat.le_of_not_lt hx) hw hl

end left

end Scan

end MailMerge
