/-
  MailMerge.Proofs.Field.Tidy — trees whose fields do not get into each other's way.

  The anchors of a field and the body of a block are siblings of the element at which the field
  or the block begins. In a tidy tree no begin marker and no instruction stands in such a row,
  text elements hold no part of a field, and instructions hold no element. What a word
  processor writes is tidy: it puts markers and instructions into runs, which hold nothing at
  which a block can begin. Another tree can still be scanned, but then a body may be copied
  without the element that a field in it begins at, or a text that is put in one field's place
  may become part of the instruction of another.

  Proved: in a tidy tree no anchor is an instruction (`Tidy.anchor_not_instruction`), and
  neither a begin marker nor an instruction is in the row of a block's body (`Tidy.body`).
-/

import MailMerge.Proofs.Block.Apart
import MailMerge.Proofs.Splice.Inert

namespace MailMerge

open MailMerge.Tree

namespace Tree

variable {t u : Tree}

/-! ## Nodes that hold fields -/

/-- The node is or contains something that fields are made of. -/
def laden (t : Tree) (x : NodeId) : Bool := (t.subtree x).any fun y => (t.kind y).carries

theorem laden_iff (h : t.WellFormed) {x : NodeId} : t.laden x = true ↔ ∃ y, t.Within x y ∧ (t.kind y).carries = true := by
  simp only [laden, List.any_eq_true, h.mem_subtree]

theorem laden_of_within (h : t.WellFormed) {x y : NodeId} (hw : t.Within x y) (hy : t.laden y = true) : t.laden x = true := by
  obtain ⟨z, hz, hcarries⟩ := (laden_iff h).mp hy
  exact (laden_iff h).mpr ⟨z, within_trans hw hz, hcarries⟩

/-! ## Tidy trees -/

/-- A begin marker or an instruction. -/
def isPart (t : Tree) (x : NodeId) : Bool := t.isMarker .opening x || t.isNamed Word.instructionText x

theorem carries_of_isPart {x : NodeId} (h : t.isPart x = true) : (t.kind x).carries = true := by
  rcases (Bool.or_eq_true _ _).mp h with hm | hn
  · exact carries_of_isMarker hm
  · exact carries_of_instruction hn

/-- A begin marker stands right in the node. -/
def hasBegin (t : Tree) (x : NodeId) : Bool := (t.children x).any (t.isMarker .opening)

/-- An element at which a field or a block can begin. -/
def isBoundary (t : Tree) (x : NodeId) : Bool :=
  t.isNamed Word.simpleField x || t.isNamed Word.paragraph x || t.isNamed Word.tableRow x || t.hasBegin x

/-- Below `id` no field gets into the way of another. -/
structure Tidy (t : Tree) (id : NodeId) : Prop where
  /-- A begin marker is in an element. -/
  housed : ∀ x ∈ t.subtree id, t.isMarker .opening x = true → ∃ p ∈ t.parent x, t.isElement p = true
  /-- Beside a begin marker or an instruction stands nothing that holds a field and at which a
      field or a block can begin. -/
  apart : ∀ x ∈ t.subtree id, t.isPart x = true → ∀ p ∈ t.parent x, ∀ y ∈ t.children p, t.laden y = true → t.isBoundary y = false
  /-- A text element holds no part of a field. -/
  text : ∀ x ∈ t.subtree id, t.isNamed Word.text x = true → t.laden x = false
  /-- An instruction holds no element. -/
  plain : ∀ x ∈ t.subtree id, t.isNamed Word.instructionText x = true → ∀ c ∈ t.children x, t.isElement c = false

instance (t : Tree) (id : NodeId) : Decidable (t.Tidy id) :=
  decidable_of_iff (_ ∧ _ ∧ _ ∧ _) ⟨fun ⟨hh, ha, ht, hp⟩ => ⟨hh, ha, ht, hp⟩, fun h => ⟨h.housed, h.apart, h.text, h.plain⟩⟩

section tidy

variable (h : t.WellFormed) {id : NodeId} (htidy : t.Tidy id)

include h htidy

theorem Tidy.beside {x y : NodeId} (hx : t.Within id x) (hp : t.parent x = t.parent y) (hpy : t.parent y ≠ none)
    (hy : t.laden y = true) (hbound : t.isBoundary y = true) : t.isPart x = false := by
  rw [Bool.eq_false_iff]
  intro hpart
  obtain ⟨p, hyp⟩ := Option.ne_none_iff_exists'.mp hpy
  have hrow := htidy.apart x (h.mem_subtree.mpr hx) hpart p (hp.trans hyp) y (h.mem_of_parent hyp) hy
  rw [hrow] at hbound
  cases hbound

omit htidy in
theorem laden_first {f : Field} (hf : f ∈ t.fields id) : t.laden f.first = true := by
  obtain ⟨-, hscan, -⟩ := mem_fields.mp hf
  obtain ⟨-, hopens, hplaced⟩ := Field.ofMarker?_eq_some hscan
  exact laden_of_within h hplaced.within_marker ((laden_iff h).mpr ⟨_, within_refl t _, carries_of_opensField hopens⟩)

omit htidy in
theorem isBoundary_first {f : Field} (hf : f ∈ t.fields id) : t.isBoundary f.first = true := by
  obtain ⟨-, hscan, -⟩ := mem_fields.mp hf
  unfold Field.ofMarker? at hscan
  split at hscan
  · next hn =>
    rw [(Field.simple?_eq_some hscan).2.1, isBoundary, hn]
    rfl
  · split at hscan
    · next hm =>
      have hp := (Field.complex?_eq_some hscan).2.1
      have hbegin : t.hasBegin f.first = true := List.any_eq_true.mpr ⟨f.marker, h.mem_of_parent hp, hm⟩
      rw [isBoundary, hbegin, Bool.or_true]
    · cases hscan

omit h in
/-- A field begins at an element. -/
theorem Tidy.isElement_first {f : Field} (hf : f ∈ t.fields id) : t.isElement f.first = true := by
  obtain ⟨hin, hscan, -⟩ := mem_fields.mp hf
  unfold Field.ofMarker? at hscan
  split at hscan
  · next hn =>
    rw [(Field.simple?_eq_some hscan).2.1]
    exact isElement_of_isNamed hn
  · split at hscan
    · next hm =>
      obtain ⟨p, hp, hel⟩ := htidy.housed f.marker (List.mem_cons_of_mem _ hin) hm
      rw [(Field.complex?_eq_some hscan).2.1] at hp
      cases hp
      exact hel
    · cases hscan

theorem Tidy.anchor_not_instruction {f : Field} (hf : f ∈ t.fields id) {a : NodeId} (ha : a ∈ f.anchors) (hin : t.Within id a)
    (hp : t.parent a ≠ none) : t.isNamed Word.instructionText a = false := by
  have hfirst := (placed_of_mem_fields hf).parent_anchor h ha
  have hpart := htidy.beside h hin hfirst (hfirst ▸ hp) (laden_first h hf) (isBoundary_first h hf)
  exact ((Bool.or_eq_false_iff).mp hpart).2

omit htidy in
/-- A block begins beside an element that holds a field and at which a field or a block can begin. -/
theorem exists_boundary {start stop : Field} (hs : start ∈ t.fields id) {k : BlockKind} {s e : NodeId}
    (hb : Block.Bounded t start stop k s e) : ∃ y, t.parent s = t.parent y ∧ t.laden y = true ∧ t.isBoundary y = true := by
  have hplaced := placed_of_mem_fields hs
  have habove : ∀ {name : String} {a : NodeId}, start.ancestor? t name = some a → t.laden a = true ∧ t.isNamed name a = true := by
    intro name a ha
    obtain ⟨hn, hw, -, -⟩ := h.findAncestor?_eq_some ha
    exact ⟨laden_of_within h hw (laden_first h hs), hn⟩
  have hfirst : ∀ a ∈ start.anchors, ∃ y, t.parent a = t.parent y ∧ t.laden y = true ∧ t.isBoundary y = true := fun a ha =>
    ⟨start.first, hplaced.parent_anchor h ha, laden_first h hs, isBoundary_first h hs⟩
  have hparagraph : ∀ a, start.ancestor? t Word.paragraph = some a →
      ∃ y, t.parent a = t.parent y ∧ t.laden y = true ∧ t.isBoundary y = true := by
    intro a ha
    obtain ⟨hladen, hn⟩ := habove ha
    exact ⟨a, rfl, hladen, by simp [isBoundary, hn]⟩
  cases hb with
  | image =>
    cases ha : start.ancestor? t Word.paragraph with
    | none => exact hfirst _ start.first_mem_anchors
    | some a => exact hparagraph a ha
  | row hrow _ _ _ =>
    obtain ⟨hladen, hn⟩ := habove hrow
    exact ⟨s, rfl, hladen, by simp [isBoundary, hn]⟩
  | paragraph hpar _ _ _ => exact hparagraph s hpar
  | inline _ _ => exact hfirst _ start.last_mem_anchors

/-- What is in the row of a body is no begin marker and no instruction. -/
theorem Tidy.body {b : Block} (hr : Block.resolve? t b.startField b.endField = some b) (hs : b.startField ∈ t.fields id)
    {x : NodeId} (hx : x ∈ b.body) (hin : t.Within id x) : t.isPart x = false := by
  obtain ⟨hpx, hnone, -, -⟩ := h.mem_laterElements (Block.mem_laterElements_of_body h hr hx).1
  obtain ⟨y, hpy, hladen, hbound⟩ := exists_boundary h hs (Block.bounded_of_resolve? hr)
  exact htidy.beside h hin (hpx.trans hpy) (hpy ▸ hnone) hladen hbound

end tidy

end Tree

end MailMerge
