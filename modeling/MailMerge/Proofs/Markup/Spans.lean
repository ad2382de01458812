/-
  MailMerge.Proofs.Markup.Spans — where the nodes of a text were written.

  The pieces of a text stand one behind the other, and none is empty. A node gets the span of
  the piece that makes it, and an element's span is moved out to its end later on. So no node
  but the container has an empty span, and siblings stand in the order in which they begin.

  Proved: the fields of a text that has been read have spans that are not empty, unless the
  container is their first anchor (`span_of_mem_fields`).
-/

import MailMerge.Proofs.Field.Anchors
import MailMerge.Proofs.Markup.Growth
import MailMerge.Proofs.Markup.Shift
import MailMerge.Proofs.Splice.Lifts
import MailMerge.Proofs.Tree.Spans

namespace MailMerge

open MailMerge.Markup MailMerge.Tree

namespace Markup

/-! ## Pieces -/

/-- The pieces follow each other from byte `pos` on, none of them empty. -/
def Consecutive : (pos : Nat) → List Placed → Prop
  | _, [] => True
  | pos, p :: ps => p.span.start = pos ∧ pos < p.span.stop ∧ Consecutive p.span.stop ps

theorem utf8Length_pos {cs : List Char} (h : cs ≠ []) : 0 < Text.utf8Length cs := by
  cases cs with
  | nil => exact absurd rfl h
  | cons c cs =>
    rw [Text.utf8Length_cons]
    exact Nat.add_pos_left c.utf8Size_pos _

theorem consecutive_piecesFrom (pos : Nat) (cs : List Char) : Consecutive pos (piecesFrom pos cs).1 := by
  fun_induction piecesFrom pos cs with
  | case1 => trivial
  | case2 => trivial
  | case3 pos cs hne piece rest hcut stop more fault hrest ih =>
    have hpiece := utf8Length_pos (source_ne_nil_of_cutPiece hne hcut)
    have hstop : pos < stop := Nat.lt_add_of_pos_right hpiece
    rw [hrest] at ih
    exact ⟨rfl, hstop, ih⟩

theorem consecutive_pieces (cs : List Char) : Consecutive 0 (pieces cs).1 := by
  unfold pieces
  split
  · split
    · exact consecutive_piecesFrom 0 _
    · exact consecutive_piecesFrom 0 _
  · trivial

/-! ## Nodes -/

/-- The nodes read before byte `pos`: no span is empty but the container's, and siblings are
    in the order in which they begin. -/
structure ReadTo (pos : Nat) (t : Tree) : Prop where
  filled : ∀ x < t.size, x ≠ root → (t.span x).start < (t.span x).stop
  before : ∀ x, (t.span x).start ≤ pos
  ordered : ∀ p, (t.children p).Pairwise fun x y => (t.span x).start ≤ (t.span y).start

variable {pos : Nat} {t : Tree}

theorem readTo_empty : ReadTo 0 empty where
  filled x hx hne := absurd (Nat.lt_one_iff.mp hx) hne
  before x := by
    by_cases hx : x < empty.size
    · obtain rfl := Nat.lt_one_iff.mp hx
      exact Nat.le_refl 0
    · rw [span, node_of_size_le (Nat.le_of_not_lt hx)]
      exact Nat.le_refl 0
  ordered p := by
    by_cases hp : p < empty.size
    · obtain rfl := Nat.lt_one_iff.mp hp
      exact List.Pairwise.nil
    · rw [children_of_size_le (Nat.le_of_not_lt hp)]
      exact List.Pairwise.nil

theorem ReadTo.later (h : ReadTo pos t) {stop : Nat} (hstop : pos ≤ stop) : ReadTo stop t :=
  { h with before := fun x => Nat.le_trans (h.before x) hstop }

/-- A new node stands behind all others. -/
theorem ReadTo.added (h : ReadTo pos t) (ht : t.WellFormed) {p : NodeId} (hp : Hosts t p) (k : Kind) {span : Span}
    (hstart : span.start = pos) (hstop : pos < span.stop) : ReadTo pos (addNode t p k span).2 := by
  have hbegin : ∀ x, ((addNode t p k span).2.span x).start ≤ pos := by
    intro x
    rw [span_addNode]
    split
    · exact Nat.le_of_eq hstart
    · exact h.before x
  have hnew : ∀ q, ∀ x ∈ t.children q, x ≠ t.size := fun q x hx => Nat.ne_of_lt (ht.lt_size_of_mem hx)
  have hrow : ∀ q, (t.children q).Pairwise fun x y =>
      ((addNode t p k span).2.span x).start ≤ ((addNode t p k span).2.span y).start := by
    intro q
    refine (h.ordered q).imp_of_mem fun {x y} hx hy hxy => ?_
    rwa [span_addNode, span_addNode, if_neg (hnew q x hx), if_neg (hnew q y hy)]
  have hchildren : ∀ q, (addNode t p k span).2.children q = if q = p then t.children p ++ [t.size] else t.children q :=
    ht.children_createBelow hp k span
  refine ⟨fun x hx hne => ?_, hbegin, fun q => ?_⟩
  · rw [span_addNode]
    split
    · rw [hstart]
      exact hstop
    · next hnew =>
      rw [size_addNode] at hx
      exact h.filled x (Nat.lt_of_le_of_ne (Nat.le_of_lt_succ hx) hnew) hne
  · rw [hchildren]
    split
    · refine List.pairwise_append.mpr ⟨hrow p, List.pairwise_singleton _ _, fun x _ y hy => ?_⟩
      obtain rfl := List.mem_singleton.mp hy
      rw [span_addNode t p k span t.size, if_pos rfl, hstart]
      exact hbegin x
    · exact hrow q

/-- An element's span reaches to its end. -/
theorem ReadTo.extended (h : ReadTo pos t) (id : NodeId) {stop : Nat} (hstop : pos < stop) :
    ReadTo pos (t.setSpan id ((t.span id).extendTo stop)) := by
  have hspan : ∀ x, (t.setSpan id ((t.span id).extendTo stop)).span x =
      if x = id ∧ x < t.size then (t.span id).extendTo stop else t.span x := by
    intro x
    rw [span, Tree.setSpan, node_update]
    split <;> rfl
  have hbegin : ∀ x, ((t.setSpan id ((t.span id).extendTo stop)).span x).start = (t.span x).start := by
    intro x
    rw [hspan]
    split
    · next hx => rw [hx.1]; rfl
    · rfl
  refine ⟨fun x hx hne => ?_, fun x => (hbegin x).symm ▸ h.before x, fun q => ?_⟩
  · rw [hspan]
    split
    · exact Nat.lt_of_lt_of_le (Nat.lt_of_le_of_lt (h.before id) hstop) (Nat.le_max_left _ _)
    · exact h.filled x (by rwa [size_setSpan] at hx) hne
  · rw [children_setSpan]
    exact (h.ordered q).imp fun {x y} hxy => by rwa [hbegin, hbegin]

/-- One piece. -/
theorem ReadTo.grown (h : ReadTo pos t) (ht : t.WellFormed) {parent : NodeId} (hp : Hosts t parent) {path : List NodeId}
    (hpath : ∀ x ∈ path, t.isElement x = true) {p : Piece} {g : Growth} (hg : growth t path p = .ok g) {span : Span}
    (hstart : span.start = pos) (hstop : pos < span.stop) : ReadTo span.stop (grow parent path span t g).2 := by
  have hin : Hosts t (innermost parent path) := by
    cases path with
    | nil => exact hp
    | cons id rest => exact hosts_of_isElement (hpath id List.mem_cons_self)
  rcases growth_cases hg with ⟨-, n, as, -, -, rfl⟩ | ⟨k, -, rfl⟩ | ⟨-, id, rest, -, -, rfl⟩
  · exact (h.added ht hin _ hstart hstop).later (Nat.le_of_lt hstop)
  · exact (h.added ht hin k hstart hstop).later (Nat.le_of_lt hstop)
  · exact (h.extended id hstop).later (Nat.le_of_lt hstop)

/-- All pieces. -/
theorem readTo_addPieces (h : ReadTo pos t) (ht : t.WellFormed) {parent : NodeId} (hp : Hosts t parent) {path : List NodeId}
    (hpath : ∀ x ∈ path, t.isElement x = true) {ps : List Placed} (hps : Consecutive pos ps) :
    ∃ stop, ReadTo stop (addPieces parent path t ps).2 := by
  induction ps generalizing t pos path with
  | nil => exact ⟨pos, h⟩
  | cons p ps ih =>
    obtain ⟨hstart, hstop, hrest⟩ := hps
    rw [addPieces]
    cases hg : growth t path p.piece with
    | error e => exact ⟨pos, h⟩
    | ok g =>
      obtain ⟨hed, hpath'⟩ := edited_grow (fenced_zero ht) (Nat.zero_le parent) hp
        (fun x hx => ⟨Nat.zero_le x, hpath x hx⟩) hg p.span
      exact ih (h.grown ht hp hpath hg hstart hstop) hed.wellFormed (hed.hosts hp) (fun x hx => (hpath' x hx).2) hrest

end Markup

namespace Tree

theorem readTo_of_ofText {text : String} {source : Nat} {t : Tree} (h : ofText text source = .ok t) : ∃ stop, ReadTo stop t := by
  have htop : Hosts empty root := ⟨by decide, Or.inl rfl⟩
  have hnone : ∀ x ∈ ([] : List NodeId), empty.isElement x = true := fun x hx => nomatch hx
  have hread := readTo_addPieces readTo_empty wellFormed_empty htop hnone (consecutive_pieces text.toList)
  unfold ofText readInto at h
  generalize pieces text.toList = found at h hread
  obtain ⟨ps, broken⟩ := found
  simp only at h hread
  generalize addPieces root [] empty ps = grown at h hread
  obtain ⟨result, u⟩ := grown
  cases result with
  | error e => cases h
  | ok path =>
    cases broken with
    | some b => cases h
    | none =>
      cases path with
      | cons id rest => cases h
      | nil => cases h; exact hread

/-- The container stays what it is. -/
theorem kind_root_of_ofText {text : String} {source : Nat} {t : Tree} (h : ofText text source = .ok t) : t.kind root = .container := by
  have hstays := stays_readInto (t := empty) (m := 1) (Nat.le_refl 1) root text source
  unfold ofText at h
  generalize empty.readInto root text source = read at h hstays
  obtain ⟨result, u⟩ := read
  cases result with
  | error e => cases h
  | ok _ =>
    cases h
    exact hstays.kind root Nat.zero_lt_one

theorem not_isElement_root {text : String} {source : Nat} {t : Tree} (h : ofText text source = .ok t) : t.isElement root = false := by
  rw [isElement, name?, kind_root_of_ofText h]
  rfl

/-- The span of a field tells where it is. -/
theorem span_of_mem_fields {text : String} {source : Nat} {t : Tree} (h : ofText text source = .ok t) {id : NodeId} {f : Field}
    (hf : f ∈ t.fields id) (hne : f.first ≠ root) : f.span.isEmpty = false := by
  obtain ⟨stop, hread⟩ := readTo_of_ofText h
  have ht := wellFormed_of_ofText h
  have hplaced := placed_of_mem_fields hf
  have hlast : (t.span f.first).start < (t.span f.last).stop := by
    rcases List.mem_cons.mp f.last_mem_anchors with he | hmem
    · have hlt : f.first < t.size := by
        rcases hplaced.marked with hm | hm
        · exact hm ▸ lt_size_of_isElement (isElement_marker hf)
        · exact ht.parent_lt_size hm
      rw [he]
      exact hread.filled f.first hlt hne
    · -- a later anchor begins behind the first
      have hlater := hplaced.mem_others hmem
      obtain ⟨hp, hnone, -, hneq⟩ := ht.mem_laterElements hlater
      obtain ⟨p, hpf⟩ := Option.ne_none_iff_exists'.mp hnone
      obtain ⟨before, after, hrow⟩ := List.append_of_mem (ht.mem_of_parent hpf)
      have hafter : f.last ∈ after := by
        rw [ht.laterElements_eq hrow] at hlater
        exact (List.mem_filter.mp hlater).1
      have hordered := hread.ordered p
      rw [hrow] at hordered
      have hle := (List.pairwise_cons.mp (List.pairwise_append.mp hordered).2.1).1 f.last hafter
      have hlt := ht.lt_size_of_mem (ht.mem_of_parent (hp.trans hpf))
      have hroot : f.last ≠ root := fun he => by
        rw [he, ht.top] at hp
        exact hnone hp.symm
      exact Nat.lt_of_le_of_lt hle (hread.filled f.last hlt hroot)
  have hspan := Field.span_of_ofMarker? (mem_fields.mp hf).2.1
  rw [Span.isEmpty, hspan]
  exact decide_eq_false (Nat.not_le_of_lt (Nat.lt_of_lt_of_le hlast (Nat.le_max_left _ _)))

end Tree

end MailMerge
