/-
  MailMerge.Proofs.Markup.Laid — nodes one behind the other in a text.

  The pieces of a text lie end to end, and a node is read from one piece, or from a start tag,
  the pieces of its children and an end tag. So nodes that are read one behind the other lie
  one behind the other in the text (`Laid`), each with what is inside between its own tags. A
  byte order mark in front is dropped before anything is counted.

  A run that leaves nothing open is over a balanced row of pieces, and the induction is on the
  row: what an element's start tag begins is read before its end tag comes.

  Proved: what is read from a balanced row of pieces is laid out by them, each node with the
  span of its pieces (`gains_balanced`); laid out anywhere, they make the same nodes grow again
  (`Laid.grows`).
-/

import MailMerge.Proofs.Markup.Readings
import MailMerge.Proofs.Markup.Spans

namespace MailMerge

open MailMerge.Markup MailMerge.Text MailMerge.Tree

namespace Text

/-- What is read of a text: all but a byte order mark in front. -/
def unmarked : List Char → List Char
  | c :: cs => if c = byteOrderMark then cs else c :: cs
  | [] => []

theorem unmarked_of_head? {cs : List Char} (h : cs.head? ≠ some byteOrderMark) : unmarked cs = cs := by
  cases cs with
  | nil => rfl
  | cons c cs => exact if_neg fun hc => h (by rw [hc]; rfl)

end Text

namespace Markup

/-! ## Pieces -/

/-- The text of pieces. -/
def sources (ps : List Piece) : List Char := ps.flatMap Piece.source

theorem sources_append (ps qs : List Piece) : sources (ps ++ qs) = sources ps ++ sources qs := List.flatMap_append

theorem sources_cons (p : Piece) (ps : List Piece) : sources (p :: ps) = p.source ++ sources ps := List.flatMap_cons

theorem sources_singleton (p : Piece) : sources [p] = p.source := by rw [sources_cons, sources, List.flatMap_nil, List.append_nil]

/-- How many bytes pieces take. -/
def extent (ps : List Piece) : Nat := utf8Length (sources ps)

@[simp] theorem extent_nil : extent [] = 0 := rfl

@[simp] theorem extent_append (ps qs : List Piece) : extent (ps ++ qs) = extent ps + extent qs := by
  rw [extent, sources_append, utf8Length_append]
  rfl

@[simp] theorem extent_cons (p : Piece) (ps : List Piece) : extent (p :: ps) = utf8Length p.source + extent ps := by
  rw [extent, sources_cons, utf8Length_append]
  rfl

/-- The spans of the pieces are where they stand in their text, from byte `pos` on. -/
def Measured : (pos : Nat) → List Placed → Prop
  | _, [] => True
  | pos, p :: ps => p.span = ⟨pos, pos + utf8Length p.piece.source⟩ ∧ Measured (pos + utf8Length p.piece.source) ps

theorem Measured.append {pos : Nat} {ps qs : List Placed} (h : Measured pos (ps ++ qs)) :
    Measured pos ps ∧ Measured (pos + extent (ps.map (·.piece))) qs := by
  induction ps generalizing pos with
  | nil => exact ⟨trivial, h⟩
  | cons p ps ih =>
    obtain ⟨hspan, hrest⟩ := h
    obtain ⟨hps, hqs⟩ := ih hrest
    refine ⟨⟨hspan, hps⟩, ?_⟩
    rwa [List.map_cons, extent_cons, ← Nat.add_assoc]

theorem measured_piecesFrom (pos : Nat) (cs : List Char) : Measured pos (piecesFrom pos cs).1 := by
  fun_induction piecesFrom pos cs with
  | case1 => trivial
  | case2 => trivial
  | case3 pos cs hne piece rest hcut stop more fault hrest ih =>
    rw [hrest] at ih
    exact ⟨rfl, ih⟩

theorem sources_piecesFrom {pos : Nat} {cs : List Char} (h : (piecesFrom pos cs).2 = none) :
    sources ((piecesFrom pos cs).1.map (·.piece)) = cs := by
  fun_induction piecesFrom pos cs with
  | case1 => rfl
  | case2 => cases h
  | case3 pos cs hne piece rest hcut stop more fault hrest ih =>
    rw [hrest] at ih
    rw [List.map_cons, sources_cons, ih h]
    exact (eq_of_cutPiece hcut).symm

theorem pieces_eq (cs : List Char) : pieces cs = piecesFrom 0 (unmarked cs) := by
  cases cs with
  | nil => rw [pieces, unmarked, piecesFrom, dif_pos rfl]
  | cons c cs =>
    rw [pieces, unmarked]
    split <;> rfl

/-! ## Balanced rows -/

/-- Neither a start tag nor an end tag. -/
def Piece.isLeaf : Piece → Bool
  | opening _ | closing _ => false
  | _ => true

/-- Each start tag has its end tag. -/
inductive Balanced : List Piece → Prop
  | nil : Balanced []
  | leaf {p : Piece} {ps : List Piece} : p.isLeaf = true → Balanced ps → Balanced (p :: ps)
  | element {start stop : List Char} {inner ps : List Piece} : Balanced inner → Balanced ps →
      Balanced (.opening start :: inner ++ .closing stop :: ps)

/-- `depth` end tags are still to come for start tags in front, the rest is balanced. -/
def Closing : (depth : Nat) → List Piece → Prop
  | 0, ps => Balanced ps
  | depth + 1, ps => ∃ inner stop rest, ps = inner ++ .closing stop :: rest ∧ Balanced inner ∧ Closing depth rest

theorem Closing.leaf {p : Piece} (hp : p.isLeaf = true) {depth : Nat} {ps : List Piece} (h : Closing depth ps) :
    Closing depth (p :: ps) := by
  cases depth with
  | zero => exact Balanced.leaf hp h
  | succ depth =>
    obtain ⟨inner, stop, rest, rfl, hinner, hrest⟩ := h
    exact ⟨p :: inner, stop, rest, rfl, .leaf hp hinner, hrest⟩

theorem Closing.element {start : List Char} {depth : Nat} {ps : List Piece} (h : Closing (depth + 1) ps) :
    Closing depth (.opening start :: ps) := by
  obtain ⟨inner, stop, rest, rfl, hinner, hrest⟩ := h
  cases depth with
  | zero => exact Balanced.element hinner hrest
  | succ depth =>
    obtain ⟨inner', stop', rest', rfl, hinner', hrest'⟩ := hrest
    exact ⟨.opening start :: inner ++ .closing stop :: inner', stop', rest', by simp, .element hinner hinner', hrest'⟩

theorem isLeaf_of_readLeaf {p : Piece} {k : Kind} (h : readLeaf p = .ok (some k)) : p.isLeaf = true := by
  cases p with
  | opening content => cases h
  | closing content => cases h
  | _ => rfl

/-- An element that one piece makes is written in one tag. -/
theorem closed_of_readLeaf {p : Piece} {t : Tree} {x : NodeId} (h : readLeaf p = .ok (some (t.kind x))) (hx : t.isElement x = true) :
    ∃ content, p = .closed content ∧ readElement content = .ok (t.kind x) := by
  obtain ⟨name, as, hkind⟩ := kind_of_isElement hx
  rw [hkind] at h ⊢
  cases p with
  | data raw =>
    rw [readLeaf] at h
    split at h <;> cases h
  | closed content =>
    refine ⟨content, rfl, ?_⟩
    rw [readLeaf] at h
    cases hr : readElement content with
    | error e => rw [hr] at h; cases h
    | ok k => rw [hr] at h; cases h; rfl
  | instruction body =>
    rw [readLeaf] at h
    split at h
    · cases hr : readDeclaration body with
      | error e => rw [hr] at h; cases h
      | ok s => rw [hr] at h; cases h
    · cases h
  | _ => cases h

/-- Pieces that are read with nothing left open close what was open before. -/
theorem closing_of_addPieces {parent : NodeId} {path : List NodeId} {t v : Tree} {ps : List Placed}
    (h : addPieces parent path t ps = (.ok [], v)) : Closing path.length (ps.map (·.piece)) := by
  induction ps generalizing path t with
  | nil => cases h; exact .nil
  | cons p ps ih =>
    rw [addPieces] at h
    cases hg : growth t path p.piece with
    | error e => rw [hg] at h; cases h
    | ok g =>
      rw [hg] at h
      have hnext := ih h
      rw [List.map_cons]
      rcases growth_cases hg with ⟨content, n, as, hp, -, rfl⟩ | ⟨k, hread, rfl⟩ | ⟨content, id, rest, hp, rfl, rfl⟩
      · rw [hp]
        exact hnext.element
      · exact hnext.leaf (isLeaf_of_readLeaf hread)
      · exact ⟨[], content, ps.map (·.piece), by rw [hp]; rfl, .nil, hnext⟩

/-! ## Nodes in a text -/

/-- The nodes lie one behind the other in a text, from byte `a` to byte `b`, read from these
    pieces. None of them, nor of those inside, is older than `first`. -/
inductive Laid (t : Tree) (first : NodeId) : (a : Nat) → List NodeId → List Piece → (b : Nat) → Prop
  | nil {a : Nat} : Laid t first a [] [] a
  | leaf {a b : Nat} {x : NodeId} {p : Piece} {xs : List NodeId} {ps : List Piece} : first ≤ x → x < t.size →
      readLeaf p = .ok (some (t.kind x)) → t.children x = [] → t.span x = ⟨a, a + utf8Length p.source⟩ →
      Laid t first (a + utf8Length p.source) xs ps b → Laid t first a (x :: xs) (p :: ps) b
  | element {a m b : Nat} {x : NodeId} {start stop : List Char} {inner : List Piece} {xs : List NodeId} {ps : List Piece} :
      first ≤ x → readElement start = .ok (t.kind x) → t.name? x = some (closingName stop) →
      t.span x = ⟨a, m + utf8Length (Piece.closing stop).source⟩ →
      Laid t first (a + utf8Length (Piece.opening start).source) (t.children x) inner m →
      Laid t first (m + utf8Length (Piece.closing stop).source) xs ps b →
      Laid t first a (x :: xs) (.opening start :: inner ++ .closing stop :: ps) b

namespace Laid

variable {t u : Tree} {first a b c : Nat} {xs ys : List NodeId} {ps qs : List Piece}

theorem append (h : Laid t first a xs ps b) (h' : Laid t first b ys qs c) : Laid t first a (xs ++ ys) (ps ++ qs) c := by
  induction h with
  | nil => exact h'
  | leaf hx hlt hread hchildren hspan _ ih => exact .leaf hx hlt hread hchildren hspan (ih h')
  | element hx hread hname hspan hinner _ _ ih =>
    rw [List.append_assoc]
    exact .element hx hread hname hspan hinner (ih h')

/-- Only the nodes themselves count. -/
theorem mono (h : Laid t first a xs ps b) {first' : NodeId} (hle : first' ≤ first) (hsize : t.size ≤ u.size)
    (hsame : ∀ x, first ≤ x → x < t.size → u.kind x = t.kind x ∧ u.children x = t.children x ∧ u.span x = t.span x) :
    Laid u first' a xs ps b := by
  induction h with
  | nil => exact .nil
  | @leaf a b x p xs ps hx hlt hread hchildren hspan _ ih =>
    obtain ⟨hk, hc, hs⟩ := hsame x hx hlt
    refine .leaf (Nat.le_trans hle hx) (Nat.lt_of_lt_of_le hlt hsize) ?_ (hc.trans hchildren) (hs.trans hspan) ih
    rw [hk]
    exact hread
  | @element a m b x start stop inner xs ps hx hread hname hspan _ _ ihinner ih =>
    obtain ⟨hk, hc, hs⟩ := hsame x hx (lt_size_of_isElement (by rw [isElement, hname]; rfl))
    rw [← hk] at hread
    rw [name?, ← hk] at hname
    rw [← hc] at ihinner
    exact .element (Nat.le_trans hle hx) hread hname (hs.trans hspan) ihinner ih

theorem stop_eq (h : Laid t first a xs ps b) : b = a + extent ps := by
  induction h with
  | nil => rfl
  | leaf _ _ _ _ _ _ ih => rw [ih, extent_cons, Nat.add_assoc]
  | element _ _ _ _ _ _ ihinner ih =>
    rw [ih, ihinner, List.cons_append, extent_cons, extent_append, extent_cons]
    omega

end Laid

/-! ## Reading -/

/-- What `p` gains by reading these pieces from byte `pos` on. Nothing happens elsewhere. -/
structure Gains (t : Tree) (p : NodeId) (pos : Nat) (ps : List Piece) (u : Tree) : Prop extends Relists (· = p) t u where
  span : ∀ x, x < t.size → u.span x = t.span x
  parent : ∀ x, x < t.size → u.parent x = t.parent x
  below : ∀ x, t.size ≤ x → x < u.size → u.Within p x
  laid : ∃ new, u.children p = t.children p ++ new ∧ Laid u t.size pos new ps (pos + extent ps)

namespace Gains

variable {t u v : Tree} {p : NodeId} {pos : Nat} {ps qs : List Piece}

theorem refl (h : t.WellFormed) (p : NodeId) (pos : Nat) : Gains t p pos [] t where
  toRelists := .refl h
  span _ _ := rfl
  parent _ _ := rfl
  below _ hx hlt := absurd hx (Nat.not_le_of_lt hlt)
  laid := ⟨[], (List.append_nil _).symm, .nil⟩

theorem within (h : Gains t p pos ps u) {a d : NodeId} (hd : t.Within a d) : u.Within a d :=
  Relation.ReflTransGen.mono (fun _ c hc => (h.parent c (lt_size_of_parent hc)).trans hc) a d hd

theorem trans (h : Gains t p pos ps u) (hp : p < t.size) (h' : Gains u p (pos + extent ps) qs v) : Gains t p pos (ps ++ qs) v where
  toRelists := h.toRelists.trans h'.toRelists
  span x hx := (h'.span x (Nat.lt_of_lt_of_le hx h.grows)).trans (h.span x hx)
  parent x hx := (h'.parent x (Nat.lt_of_lt_of_le hx h.grows)).trans (h.parent x hx)
  below x hx hlt := by
    by_cases hold : x < u.size
    · exact h'.within (h.below x hx hold)
    · exact h'.below x (Nat.le_of_not_lt hold) hlt
  laid := by
    obtain ⟨new, hnew, hlaid⟩ := h.laid
    obtain ⟨new', hnew', hlaid'⟩ := h'.laid
    refine ⟨new ++ new', by rw [hnew', hnew, List.append_assoc], ?_⟩
    -- `p` is the only node that gains children, and it is older than what is laid
    have hkept : Laid v t.size pos new ps (pos + extent ps) := hlaid.mono (Nat.le_refl _) h'.grows fun x hx hlt =>
      ⟨h'.kind x hlt, h'.children x hlt (Nat.ne_of_gt (Nat.lt_of_lt_of_le hp hx)), h'.span x hlt⟩
    have hsame : ∀ x, u.size ≤ x → x < v.size → v.kind x = v.kind x ∧ v.children x = v.children x ∧ v.span x = v.span x :=
      fun x _ _ => ⟨rfl, rfl, rfl⟩
    have hnext := hkept.append (hlaid'.mono h.grows (Nat.le_refl _) hsame)
    rwa [Nat.add_assoc, ← extent_append] at hnext

variable (h : t.WellFormed) (hp : Hosts t p)

include h hp

/-- A new node without children. -/
theorem added (k : Kind) (span : Span) : Relists (· = p) t (addNode t p k span).2 ∧
    (∀ x, x < t.size → (addNode t p k span).2.span x = t.span x) ∧
    (∀ x, x < t.size → (addNode t p k span).2.parent x = t.parent x) ∧
    ∀ x, t.size ≤ x → x < (addNode t p k span).2.size → (addNode t p k span).2.Within p x := by
  refine ⟨(sprouted_addNode h hp k span).toRelists, fun x hx => ?_, fun x hx => ?_, fun x hx hlt => ?_⟩
  · rw [span_addNode, if_neg (Nat.ne_of_lt hx)]
  · rw [parent_addNode, if_neg (Nat.ne_of_lt hx)]
  · rw [size_addNode] at hlt
    obtain rfl := Nat.le_antisymm (Nat.le_of_lt_succ hlt) hx
    exact within_of_parent (by rw [parent_addNode, if_pos rfl])

theorem leaf {q : Piece} {k : Kind} (hread : readLeaf q = .ok (some k)) :
    Gains t p pos [q] (addNode t p k ⟨pos, pos + utf8Length q.source⟩).2 := by
  obtain ⟨hrelists, hspan, hparent, hbelow⟩ := added h hp k ⟨pos, pos + utf8Length q.source⟩
  refine ⟨hrelists, hspan, hparent, hbelow, [t.size], ?_, ?_⟩
  · rw [children_addNode h hp, if_pos rfl]
  · rw [extent_cons, extent_nil, Nat.add_zero]
    refine .leaf (Nat.le_refl _) ?_ ?_ (children_new_addNode h hp k _) ?_ .nil
    · rw [size_addNode]
      exact Nat.lt_succ_self _
    · rw [kind_addNode, if_pos rfl]
      exact hread
    · rw [span_addNode, if_pos rfl]

/-- An element with what has been read into it, when it is closed. -/
theorem element {start stop : List Char} {k : Kind} (hread : readElement start = .ok k)
    (hu : Gains (addNode t p k ⟨pos, pos + utf8Length (Piece.opening start).source⟩).2 t.size
      (pos + utf8Length (Piece.opening start).source) ps u) (hname : u.name? t.size = some (closingName stop)) {whole : Span}
    (hwhole : whole = ⟨pos, pos + extent (.opening start :: ps ++ [.closing stop])⟩) :
    Gains t p pos (.opening start :: ps ++ [.closing stop]) (u.setSpan t.size whole) := by
  obtain ⟨hrelists, hspan, hparent, hbelow⟩ := added h hp k ⟨pos, pos + utf8Length (Piece.opening start).source⟩
  have hold : ∀ x < t.size, x < (addNode t p k ⟨pos, pos + utf8Length (Piece.opening start).source⟩).2.size ∧ x ≠ t.size := fun x hx =>
    ⟨by rw [size_addNode]; exact Nat.lt_succ_of_lt hx, Nat.ne_of_lt hx⟩
  have hnew : t.size < (addNode t p k ⟨pos, pos + utf8Length (Piece.opening start).source⟩).2.size := by
    rw [size_addNode]
    exact Nat.lt_succ_self _
  have hspans : ∀ x, x ≠ t.size → (u.setSpan t.size whole).span x = u.span x := by
    intro x hx
    rw [Tree.span, Tree.setSpan, node_update, if_neg fun hc => hx hc.1, Tree.span]
  have hown : (u.setSpan t.size whole).span t.size = whole := by
    rw [Tree.span, Tree.setSpan, node_update, if_pos ⟨rfl, Nat.lt_of_lt_of_le hnew hu.grows⟩]
  have hparents : ∀ x, (u.setSpan t.size whole).parent x = u.parent x := fun x => (sameLinks_setSpan u t.size whole).parent x
  have hin : ∀ a x, u.Within a x → (u.setSpan t.size whole).Within a x := fun a x hx =>
    Relation.ReflTransGen.mono (fun _ c hc => (hparents c).trans hc) a x hx
  have hchildren : ∀ x, x ≠ t.size → x < t.size → (u.setSpan t.size whole).children x = (addNode t p k _).2.children x := fun x hne hx => by
    rw [children_setSpan, hu.children x (hold x hx).1 hne]
  obtain ⟨new, hrow, hlaid⟩ := hu.laid
  refine ⟨⟨(sameLinks_setSpan u t.size whole).wellFormed hu.wellFormed, ?_, fun x hx => ?_, fun x hx hne => ?_⟩,
    fun x hx => ?_, fun x hx => ?_, fun x hx hlt => ?_, [t.size], ?_, ?_⟩
  · rw [size_setSpan]
    exact Nat.le_trans hrelists.grows hu.grows
  · rw [kind_setSpan, hu.kind x (hold x hx).1, hrelists.kind x hx]
  · rw [hchildren x (hold x hx).2 hx, hrelists.children x hx hne]
  · rw [hspans x (hold x hx).2, hu.span x (hold x hx).1, hspan x hx]
  · rw [hparents, hu.parent x (hold x hx).1, hparent x hx]
  · rw [size_setSpan] at hlt
    refine hin p x ?_
    by_cases hlt' : x < (addNode t p k ⟨pos, pos + utf8Length (Piece.opening start).source⟩).2.size
    · exact hu.within (hbelow x hx hlt')
    · exact within_trans (hu.within (hbelow t.size (Nat.le_refl _) hnew)) (hu.below x (Nat.le_of_not_lt hlt') hlt)
  · rw [hchildren p (hold p hp.lt_size).2 hp.lt_size, children_addNode h hp, if_pos rfl]
  · rw [children_new_addNode h hp, List.nil_append] at hrow
    have hkind : (u.setSpan t.size whole).kind t.size = k := by
      rw [kind_setSpan, hu.kind t.size hnew, kind_addNode, if_pos rfl]
    have hstop := hlaid.stop_eq
    have hinner : Laid (u.setSpan t.size whole) t.size (pos + utf8Length (Piece.opening start).source)
        ((u.setSpan t.size whole).children t.size) ps (pos + utf8Length (Piece.opening start).source + extent ps) := by
      rw [children_setSpan, hrow]
      refine hlaid.mono (by rw [size_addNode]; exact Nat.le_succ _) (Nat.le_of_eq (size_setSpan ..).symm) fun x hx _ => ?_
      rw [size_addNode] at hx
      exact ⟨kind_setSpan .., children_setSpan .., hspans x (Nat.ne_of_gt hx)⟩
    have htags : pos + extent (.opening start :: ps ++ [.closing stop]) =
        pos + utf8Length (Piece.opening start).source + extent ps + utf8Length (Piece.closing stop).source := by
      rw [List.cons_append, extent_cons, extent_append, extent_cons, extent_nil]
      omega
    rw [htags]
    refine .element (Nat.le_refl _) (by rw [hkind]; exact hread) ?_ ?_ hinner .nil
    · rw [name?, kind_setSpan]
      exact hname
    · rw [hown, hwhole, htags]

end Gains

theorem Gains.hosts {t u : Tree} {p : NodeId} {pos : Nat} {ps : List Piece} (h : Gains t p pos ps u) {x : NodeId} (hx : Hosts t x) :
    Hosts u x := by
  refine ⟨Nat.lt_of_lt_of_le hx.lt_size h.grows, ?_⟩
  rw [isElement_congr (h.kind x hx.lt_size)]
  exact hx.inner

/-- An end tag that is read ends the innermost open element, whose name it bears. -/
theorem leave_of_growth {t : Tree} {id : NodeId} {path : List NodeId} {stop : List Char} {g : Growth} {name : String}
    (hg : growth t (id :: path) (.closing stop) = .ok g) (hname : t.name? id = some name) :
    g = .leave id path ∧ closingName stop = name := by
  rw [growth, leaving, hname] at hg
  simp only [Option.getD_some] at hg
  split at hg
  · next he => cases hg; exact ⟨rfl, he.symm⟩
  · cases hg

/-- A balanced row of pieces, in a run that succeeds. By induction on the row: an element's end
    tag comes when what its start tag began has been read. -/
theorem gains_balanced {ps : List Piece} (hps : Balanced ps) : ∀ {parent : NodeId} {path path' : List NodeId} {t v : Tree} {pos : Nat}
    {placed rest : List Placed}, t.WellFormed → Hosts t (innermost parent path) → placed.map (·.piece) = ps → Measured pos placed →
    addPieces parent path t (placed ++ rest) = (.ok path', v) →
    ∃ u, addPieces parent path u rest = (.ok path', v) ∧ Gains t (innermost parent path) pos ps u := by
  induction hps with
  | nil =>
    intro parent path path' t v pos placed rest ht hp hplaced _ hrun
    rw [List.map_eq_nil_iff] at hplaced
    subst hplaced
    exact ⟨t, hrun, .refl ht _ pos⟩
  | @leaf q ps hq _ ih =>
    intro parent path path' t v pos placed rest ht hp hplaced hmeasured hrun
    obtain ⟨first, more, rfl, hfirst, hmore⟩ := List.map_eq_cons_iff.mp hplaced
    obtain ⟨hspan, hmeasured⟩ := hmeasured
    rw [List.cons_append, addPieces] at hrun
    cases hg : growth t path first.piece with
    | error e => rw [hg] at hrun; cases hrun
    | ok g =>
      rw [hg] at hrun
      rw [hfirst] at hg hspan hmeasured
      rcases growth_cases hg with ⟨content, n, as, rfl, -, -⟩ | ⟨k, hread, rfl⟩ | ⟨content, id, out, rfl, -, -⟩
      · cases hq
      · have hone : Gains t (innermost parent path) pos [q] _ := Gains.leaf ht hp hread
        rw [← hspan] at hone
        obtain ⟨u, hu, hgain⟩ := ih hone.wellFormed (hone.hosts hp) hmore hmeasured hrun
        refine ⟨u, hu, hone.trans hp.lt_size ?_⟩
        rwa [extent_cons, extent_nil, Nat.add_zero]
      · cases hq
  | @element start stop inner ps _ _ ihinner ih =>
    intro parent path path' t v pos placed rest ht hp hplaced hmeasured hrun
    obtain ⟨front, back, rfl, hfront, hback⟩ := List.map_eq_append_iff.mp hplaced
    obtain ⟨first, within, rfl, hfirst, hwithin⟩ := List.map_eq_cons_iff.mp hfront
    obtain ⟨last, more, rfl, hlast, hmore⟩ := List.map_eq_cons_iff.mp hback
    obtain ⟨⟨hspan, hmid⟩, hend⟩ := Measured.append hmeasured
    rw [List.map_cons, hwithin, hfirst, extent_cons, ← Nat.add_assoc] at hend
    obtain ⟨hspanlast, hmeasured⟩ := hend
    rw [hlast] at hspanlast hmeasured
    rw [hfirst] at hspan hmid
    -- the start tag
    rw [List.append_assoc, List.cons_append, addPieces] at hrun
    cases hg : growth t path first.piece with
    | error e => rw [hg] at hrun; cases hrun
    | ok g =>
      rw [hg] at hrun
      rw [hfirst] at hg
      rcases growth_cases hg with ⟨content, n, as, hc, hread, rfl⟩ | ⟨k, hread, -⟩ | ⟨content, id, out, hc, -, -⟩
      · cases hc
        have hnew : Hosts (addNode t (innermost parent path) (.element n as) first.span).2 t.size := by
          refine hosts_of_isElement ?_
          rw [isElement, name?, kind_addNode, if_pos rfl]
          rfl
        -- what is inside
        have hwell := (sprouted_addNode ht hp (.element n as) first.span).wellFormed
        have hinmost : Hosts _ (innermost parent (t.size :: path)) := hnew
        obtain ⟨u, hu, hgain⟩ := ihinner hwell hinmost hwithin hmid hrun
        -- the end tag
        rw [List.cons_append, addPieces] at hu
        cases hg' : growth u (t.size :: path) last.piece with
        | error e => rw [hg'] at hu; cases hu
        | ok g' =>
          rw [hg'] at hu
          rw [hlast] at hg'
          have hname : u.name? t.size = some n := by
            rw [name?, hgain.kind t.size hnew.lt_size, kind_addNode, if_pos rfl]
          obtain ⟨rfl, hcloses⟩ := leave_of_growth hg' hname
          have hwhole : (u.span t.size).extendTo last.span.stop = ⟨pos, pos + extent (.opening start :: inner ++ [.closing stop])⟩ := by
            rw [hgain.span t.size hnew.lt_size, span_addNode, if_pos rfl, hspan, hspanlast, Span.extendTo, Span.mk.injEq]
            rw [List.cons_append, extent_cons, extent_append, extent_cons, extent_nil]
            refine ⟨rfl, ?_⟩
            dsimp only
            omega
          rw [hspan] at hgain
          have hone := Gains.element ht hp hread hgain (hname.trans (congrArg some hcloses.symm)) hwhole
          have hpos : pos + utf8Length (Piece.opening start).source + extent inner + utf8Length (Piece.closing stop).source =
              pos + extent (.opening start :: inner ++ [.closing stop]) := by
            rw [List.cons_append, extent_cons, extent_append, extent_cons, extent_nil]
            omega
          rw [hpos] at hmeasured
          -- what is behind it
          obtain ⟨w, hw, hmoregain⟩ := ih hone.wellFormed (hone.hosts hp) hmore hmeasured hu
          have hall := hone.trans hp.lt_size hmoregain
          rw [List.append_assoc] at hall
          exact ⟨w, hw, hall⟩
      · cases hread
      · cases hc

/-! ## Single nodes -/

namespace Laid

variable {t : Tree} {first a b : Nat} {x : NodeId} {xs : List NodeId} {ps : List Piece}

/-- The pieces of one of the nodes. -/
theorem of_mem (h : Laid t first a xs ps b) (hx : x ∈ xs) : ∃ before mid after, ps = before ++ mid ++ after ∧
    Laid t first (a + extent before) [x] mid (a + extent before + extent mid) := by
  induction h with
  | nil => exact absurd hx List.not_mem_nil
  | @leaf a b y p xs ps hy hlt hread hchildren hspan _ ih =>
    rcases List.mem_cons.mp hx with rfl | hx
    · refine ⟨[], [p], ps, rfl, ?_⟩
      rw [extent_nil, Nat.add_zero, extent_cons, extent_nil, Nat.add_zero]
      exact .leaf hy hlt hread hchildren hspan .nil
    · obtain ⟨before, mid, after, rfl, hlaid⟩ := ih hx
      refine ⟨p :: before, mid, after, rfl, ?_⟩
      rwa [extent_cons, ← Nat.add_assoc]
  | @element a m b y start stop inner xs ps hy hread hname hspan hinner _ _ ih =>
    have hm := hinner.stop_eq
    have hwhole : m + utf8Length (Piece.closing stop).source = a + extent (.opening start :: inner ++ [.closing stop]) := by
      rw [hm, List.cons_append, extent_cons, extent_append, extent_cons, extent_nil]
      omega
    rcases List.mem_cons.mp hx with rfl | hx
    · refine ⟨[], .opening start :: inner ++ [.closing stop], ps, by simp, ?_⟩
      rw [extent_nil, Nat.add_zero, ← hwhole]
      exact .element hy hread hname hspan hinner .nil
    · obtain ⟨before, mid, after, rfl, hlaid⟩ := ih hx
      refine ⟨.opening start :: inner ++ .closing stop :: before, mid, after, by simp, ?_⟩
      have hbefore : m + utf8Length (Piece.closing stop).source + extent before =
          a + extent (.opening start :: inner ++ .closing stop :: before) := by
        rw [hm, List.cons_append, extent_cons, extent_append, extent_cons]
        omega
      rwa [← hbefore]

/-- One node is read from one piece, or from its tags and the pieces of its children. -/
theorem singleton (h : Laid t first a [x] ps b) : t.span x = ⟨a, b⟩ ∧
    ((∃ p, ps = [p] ∧ readLeaf p = .ok (some (t.kind x)) ∧ t.children x = []) ∨
      ∃ start inner stop, ps = .opening start :: inner ++ [.closing stop] ∧ readElement start = .ok (t.kind x) ∧
        t.name? x = some (closingName stop) ∧ Laid t first (a + utf8Length (Piece.opening start).source) (t.children x) inner
          (a + utf8Length (Piece.opening start).source + extent inner)) := by
  cases h with
  | @leaf _ _ _ p _ ps hx hlt hread hchildren hspan hrest =>
    cases hrest
    exact ⟨hspan, Or.inl ⟨p, rfl, hread, hchildren⟩⟩
  | @element _ m _ _ start stop inner _ ps hx hread hname hspan hinner hrest =>
    cases hrest
    have hm := hinner.stop_eq
    exact ⟨hspan, Or.inr ⟨start, inner, stop, rfl, hread, hname, hm ▸ hinner⟩⟩

/-- The pieces make the nodes grow again, wherever they are read. -/
theorem grows (h : Laid t first a xs ps b) (ht : t.WellFormed) : Grows ps (xs.map t.twig) := by
  induction h with
  | nil => exact grows_nil
  | @leaf a b y p xs ps _ _ hread hchildren _ _ ih =>
    rw [List.map_cons, ht.twig_eq, hchildren]
    exact (grows_leaf hread).append ih
  | @element a m b y start stop inner xs ps _ hread hname _ _ _ ihinner ih =>
    obtain ⟨name, as, hkind⟩ := kind_of_isElement (by rw [isElement, hname]; rfl : t.isElement y = true)
    have hcloses : closingName stop = name := by
      rw [name?, hkind] at hname
      exact (Option.some.inj hname).symm
    rw [hkind] at hread
    have hall := (grows_element hread hcloses ihinner).append ih
    rw [List.map_cons, ht.twig_eq, hkind]
    rwa [List.append_assoc] at hall

end Laid

end Markup

end MailMerge
