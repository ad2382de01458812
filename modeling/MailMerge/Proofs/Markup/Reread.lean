/-
  MailMerge.Proofs.Markup.Reread — what is written is read as what it was.

  Reading makes a node for each piece and appends it below the innermost open element, so
  reading the pieces of a twig appends one child with that twig there, whatever has been read
  before and whatever follows (`Tree.Sprouted`). By induction on the twig: the pieces between
  the two tags of an element are those of its children, appended below the new element.

  Proved: the text of legible twigs, no text among them followed by a text, is read as these
  twigs below the container (`ofText_sourceAll`), unless it begins with a byte order mark; so
  a tree whose nodes are legible reads back (`Legible.reread`).
-/

import MailMerge.Proofs.Markup.Growth
import MailMerge.Proofs.Markup.Written
import MailMerge.Proofs.Tree.Twigs

namespace MailMerge

open MailMerge.Markup MailMerge.Tree

/-! ## What a tree gains -/

namespace Tree

/-- New children of `p` with these twigs, behind the others. -/
structure Sprouted (t : Tree) (p : NodeId) (ws : List Twig) (u : Tree) : Prop extends Relists (· = p) t u where
  twigs : ∃ new, u.children p = t.children p ++ new ∧ new.map u.twig = ws

theorem Sprouted.refl {t : Tree} (h : t.WellFormed) (p : NodeId) : Sprouted t p [] t := ⟨.refl h, [], by simp, rfl⟩

theorem Sprouted.trans {t u v : Tree} {p : NodeId} {ws ws' : List Twig} (h : Sprouted t p ws u) (h' : Sprouted u p ws' v) :
    Sprouted t p (ws ++ ws') v := by
  obtain ⟨new, hnew, hws⟩ := h.twigs
  obtain ⟨new', hnew', hws'⟩ := h'.twigs
  refine ⟨h.toRelists.trans h'.toRelists, new ++ new', by rw [hnew', hnew, List.append_assoc], ?_⟩
  have hkept : new.map v.twig = new.map u.twig := h'.toRelists.twigs_children h.wellFormed fun c hc => by rw [hnew]; simp [hc]
  rw [List.map_append, hkept, hws, hws']

theorem Sprouted.hosts {t u : Tree} {p : NodeId} {ws : List Twig} (h : Sprouted t p ws u) {x : NodeId} (hx : Hosts t x) : Hosts u x := by
  refine ⟨Nat.lt_of_lt_of_le hx.lt_size h.grows, ?_⟩
  rw [isElement_congr (h.kind x hx.lt_size)]
  exact hx.inner

variable {t : Tree} (h : t.WellFormed) {p : NodeId} (hp : Hosts t p)

include h hp

theorem children_addNode (k : Kind) (span : Span) (q : NodeId) :
    (addNode t p k span).2.children q = if q = p then t.children p ++ [t.size] else t.children q :=
  h.children_createBelow hp k span q

theorem children_new_addNode (k : Kind) (span : Span) : (addNode t p k span).2.children t.size = [] := by
  rw [children_addNode h hp, if_neg (Nat.ne_of_gt hp.lt_size)]
  exact children_of_size_le (Nat.le_refl _)

theorem sprouted_addNode (k : Kind) (span : Span) : Sprouted t p [.node k []] (addNode t p k span).2 := by
  have hw : (addNode t p k span).2.WellFormed := h.createBelow hp k span
  refine ⟨⟨hw, ?_, fun x hx => ?_, fun x hx hne => ?_⟩, [t.size], ?_, ?_⟩
  · rw [size_addNode]
    exact Nat.le_succ _
  · rw [kind_addNode, if_neg (Nat.ne_of_lt hx)]
  · rw [children_addNode h hp, if_neg hne]
  · rw [children_addNode h hp, if_pos rfl]
  · rw [List.map_singleton, hw.twig_eq, children_new_addNode h hp, kind_addNode, if_pos rfl]
    rfl

/-- An element with what has been read into it, when it is closed. -/
theorem sprouted_closed {k : Kind} {span : Span} {ws : List Twig} {v : Tree} (hv : Sprouted (addNode t p k span).2 t.size ws v)
    (span' : Span) : Sprouted t p [.node k ws] (v.setSpan t.size span') := by
  have hu := sprouted_addNode h hp k span
  have hw : (v.setSpan t.size span').WellFormed := (sameLinks_setSpan v t.size span').wellFormed hv.wellFormed
  have hold : ∀ x < t.size, x < (addNode t p k span).2.size ∧ x ≠ t.size := fun x hx =>
    ⟨by rw [size_addNode]; exact Nat.lt_succ_of_lt hx, Nat.ne_of_lt hx⟩
  refine ⟨⟨hw, ?_, fun x hx => ?_, fun x hx hne => ?_⟩, [t.size], ?_, ?_⟩
  · rw [size_setSpan]
    exact Nat.le_trans hu.grows hv.grows
  · rw [kind_setSpan, hv.kind x (hold x hx).1, hu.kind x hx]
  · rw [children_setSpan, hv.children x (hold x hx).1 (hold x hx).2, hu.children x hx hne]
  · rw [children_setSpan, hv.children p (hold p hp.lt_size).1 (hold p hp.lt_size).2]
    rw [children_addNode h hp, if_pos rfl]
  · obtain ⟨new, hnew, htwigs⟩ := hv.twigs
    have hsame : (v.setSpan t.size span').twig t.size = v.twig t.size :=
      twig_congr hv.wellFormed hw fun d _ => ⟨kind_setSpan v t.size d span', children_setSpan v t.size d span'⟩
    have hkind : v.kind t.size = k := by
      rw [hv.kind t.size (by rw [size_addNode]; exact Nat.lt_succ_self _), kind_addNode, if_pos rfl]
    rw [List.map_singleton, hsame, hv.wellFormed.twig_eq, hkind, hnew, children_new_addNode h hp, List.nil_append, htwigs]

end Tree

/-! ## Reading pieces -/

namespace Markup

/-- Whatever is behind them, these pieces make these twigs grow. -/
def Grows (ps : List Piece) (ws : List Twig) : Prop := ∀ (parent : NodeId) (path : List NodeId) (t : Tree), t.WellFormed →
  Hosts t (innermost parent path) → ∀ placed : List Placed, placed.map (·.piece) = ps → ∀ rest, ∃ u,
    addPieces parent path t (placed ++ rest) = addPieces parent path u rest ∧ Sprouted t (innermost parent path) ws u

theorem grows_nil : Grows [] [] := by
  intro parent path t h hp placed hplaced rest
  rw [List.map_eq_nil_iff] at hplaced
  subst hplaced
  exact ⟨t, rfl, .refl h _⟩

theorem Grows.append {ps ps' : List Piece} {ws ws' : List Twig} (h : Grows ps ws) (h' : Grows ps' ws') : Grows (ps ++ ps') (ws ++ ws') := by
  intro parent path t ht hp placed hplaced rest
  obtain ⟨first, second, rfl, hfirst, hsecond⟩ := List.map_eq_append_iff.mp hplaced
  obtain ⟨u, hu, hgrown⟩ := h parent path t ht hp first hfirst (second ++ rest)
  obtain ⟨v, hv, hgrown'⟩ := h' parent path u hgrown.wellFormed (hgrown.hosts hp) second hsecond rest
  exact ⟨v, by rw [List.append_assoc, hu, hv], hgrown.trans hgrown'⟩

/-- A piece without content of its own. -/
theorem grows_leaf {p : Piece} {k : Kind} (hread : readLeaf p = .ok (some k)) : Grows [p] [.node k []] := by
  intro parent path t h hp placed hplaced rest
  obtain ⟨q, rfl, hpiece⟩ := List.map_eq_singleton_iff.mp hplaced
  have hgrowth : growth t path p = .ok (.leaf k) := by
    cases p with
    | opening content => cases hread
    | closing content => cases hread
    | _ =>
      simp only [growth, hread]
      rfl
  refine ⟨(addNode t (innermost parent path) k q.span).2, ?_, sprouted_addNode h hp k q.span⟩
  rw [List.cons_append, List.nil_append, addPieces, hpiece, hgrowth]
  rfl

/-- The pieces between two tags are read below the element that the first of them opens. -/
theorem grows_element {start stop : List Char} {name : String} {as : List (String × String)}
    (hstart : readElement start = .ok (.element name as)) (hstop : closingName stop = name) {ps : List Piece} {ws : List Twig}
    (hps : Grows ps ws) : Grows (.opening start :: ps ++ [.closing stop]) [.node (.element name as) ws] := by
  intro parent path t h hp placed hplaced rest
  obtain ⟨front, last, rfl, hfront, hlast⟩ := List.map_eq_append_iff.mp hplaced
  obtain ⟨first, inner, rfl, hfirst, hinner⟩ := List.map_eq_cons_iff.mp hfront
  obtain ⟨last, rfl, hclosing⟩ := List.map_eq_singleton_iff.mp hlast
  have hopen : growth t path first.piece = .ok (.enter (.element name as)) := by
    rw [hfirst, growth, hstart]
    rfl
  have hnew := sprouted_addNode h hp (.element name as) first.span
  have hkind : (addNode t (innermost parent path) (.element name as) first.span).2.kind t.size = .element name as := by
    rw [kind_addNode, if_pos rfl]
  have hhosts : Hosts (addNode t (innermost parent path) (.element name as) first.span).2 t.size := by
    refine hosts_of_isElement ?_
    rw [isElement, Tree.name?, hkind]
    rfl
  obtain ⟨v, hv, hgrown⟩ := hps parent (t.size :: path) _ hnew.wellFormed hhosts inner hinner (last :: rest)
  have hclose : growth v (t.size :: path) last.piece = .ok (.leave t.size path) := by
    have hname : v.name? t.size = some name := by
      rw [Tree.name?, hgrown.kind t.size hhosts.lt_size, hkind]
    rw [hclosing, growth, hstop, leaving, hname]
    simp
  refine ⟨v.setSpan t.size ((v.span t.size).extendTo last.span.stop), ?_, sprouted_closed h hp hgrown _⟩
  have hsplit : first :: inner ++ [last] ++ rest = first :: (inner ++ last :: rest) := by simp
  have hfirst' : addPieces parent path t (first :: (inner ++ last :: rest)) =
      addPieces parent (t.size :: path) (addNode t (innermost parent path) (.element name as) first.span).2 (inner ++ last :: rest) := by
    rw [addPieces, hopen]
    rfl
  rw [hsplit, hfirst', hv, addPieces, hclose]
  rfl

theorem grows_all {ws : List Twig} (h : ∀ w ∈ ws, Grows w.pieces [w]) : Grows (Twig.piecesAll ws) ws := by
  induction ws with
  | nil => exact grows_nil
  | cons w ws ih =>
    rw [Twig.piecesAll, ← List.singleton_append]
    exact (h w List.mem_cons_self).append (ih fun w' hw' => h w' (List.mem_cons_of_mem w hw'))

/-- The pieces of a legible twig are read as that twig. -/
theorem grows_legible {w : Twig} (h : w.Legible) : Grows w.pieces [w] := by
  induction h with
  | @alone k hk =>
    rw [Twig.pieces_alone]
    exact grows_leaf hk.reads
  | @around name as ws hread hws _ _ ih =>
    rw [Twig.pieces_around name as hws]
    exact grows_element hread.reads hread.closes (grows_all ih)

end Markup

/-! ## Whole texts -/

theorem Twig.head?_sourceAll {ws : List Twig} (h : ∀ w ∈ ws, w.Legible)
    (hfront : ∀ data, ws.head? = some (.node (.text data) []) → data.toList.head? ≠ some Text.byteOrderMark) :
    (sourceAll ws).head? ≠ some Text.byteOrderMark := by
  cases ws with
  | nil => intro hc; cases hc
  | cons w ws =>
    have hw := h w List.mem_cons_self
    have hne : w.pieces ≠ [] := (ends_pieces hw).2.2
    cases hps : w.pieces with
    | nil => exact absurd hps hne
    | cons p ps =>
      have hp : p.Proper := hw.proper_pieces p (by rw [hps]; exact List.mem_cons_self)
      have hhead : (sourceAll (w :: ws)).head? = p.source.head? := by
        rw [sourceAll, hw.source_eq, hps, List.flatMap_cons, List.append_assoc, List.head?_append]
        cases hs : p.source with
        | nil => exact absurd hs hp.source_ne_nil
        | cons c cs => rfl
      rw [hhead]
      cases hw with
      | @around name as ws' hread hws' _ _ =>
        rw [pieces_around name as hws'] at hps
        cases hps
        rw [Piece.head?_source rfl]
        decide
      | @alone k hk =>
        rw [pieces_alone] at hps
        cases hps
        cases k with
        | text data =>
          intro hc
          rcases head?_escapeText hc with he | he
          · exact absurd he (by decide)
          · exact hfront data rfl he
        | container => exact absurd rfl hk.ne_container
        | _ =>
          rw [Piece.head?_source rfl]
          decide

/-- The text of pieces that are read as these twigs, with no byte order mark in front. -/
theorem Tree.ofText_of_grows {ps : List Piece} {ws : List Twig} (hproper : ∀ p ∈ ps, p.Proper) (hapart : ps.IsChain Piece.Apart)
    (hgrows : Grows ps ws) (hhead : (ps.flatMap Piece.source).head? ≠ some Text.byteOrderMark) (source : Nat) :
    ∃ u, ofText (String.ofList (ps.flatMap Piece.source)) source = .ok u ∧ u.WellFormed ∧ u.twig root = .node .container ws := by
  have hpieces : (pieces (ps.flatMap Piece.source)).1.map (·.piece) = ps ∧ (pieces (ps.flatMap Piece.source)).2 = none := by
    have hall : pieces (ps.flatMap Piece.source) = piecesFrom 0 (ps.flatMap Piece.source) := by
      unfold pieces
      split
      · next c cs hcs =>
        rw [hcs] at hhead
        rw [if_neg fun he => hhead (by rw [he]; rfl)]
      · next hcs => rw [hcs, piecesFrom, dif_pos rfl]
    rw [hall]
    exact piecesFrom_source hproper hapart 0
  have hhosts : Hosts Tree.empty root := ⟨by decide, Or.inl rfl⟩
  obtain ⟨u, hu, hgrown⟩ := hgrows root [] Tree.empty wellFormed_empty hhosts _ hpieces.1 []
  refine ⟨u, ?_, hgrown.wellFormed, ?_⟩
  · rw [List.append_nil] at hu
    have hadd : addPieces root [] Tree.empty (pieces (ps.flatMap Piece.source)).1 = (.ok [], u) := hu
    unfold ofText readInto
    rw [String.toList_ofList]
    simp only [hadd, hpieces.2]
  · obtain ⟨new, hnew, htwigs⟩ := hgrown.twigs
    have hkind : u.kind root = .container := hgrown.kind root (by decide)
    have hchildren : u.children root = new := hnew
    rw [hgrown.wellFormed.twig_eq, hkind, hchildren, htwigs]

/-- What is written for legible twigs is read as these twigs. -/
theorem Tree.ofText_sourceAll {ws : List Twig} (h : ∀ w ∈ ws, w.Legible) (hchain : ws.IsChain Twig.Apart)
    (hfront : ∀ data, ws.head? = some (.node (.text data) []) → data.toList.head? ≠ some Text.byteOrderMark) (source : Nat) :
    ∃ u, ofText (String.ofList (Twig.sourceAll ws)) source = .ok u ∧ u.WellFormed ∧ u.twig root = .node .container ws := by
  have hproper : ∀ p ∈ Twig.piecesAll ws, p.Proper := by
    intro p hp
    obtain ⟨w, hw, hp⟩ := Twig.mem_piecesAll.mp hp
    exact (h w hw).proper_pieces p hp
  have hapart := Twig.apart_piecesAll h (fun w hw => (h w hw).apart_pieces) hchain
  have hsource : Twig.sourceAll ws = (Twig.piecesAll ws).flatMap Piece.source := Twig.sourceAll_eq_of fun w hw => (h w hw).source_eq
  have hhead := Twig.head?_sourceAll h hfront
  rw [hsource] at hhead ⊢
  exact ofText_of_grows hproper hapart (grows_all fun w hw => grows_legible (h w hw)) hhead source

/-! ## Whole trees -/

namespace Tree

/-- The kinds of a node's children. -/
def kinds (t : Tree) (x : NodeId) : List Kind := (t.children x).map t.kind

/-- Every node below the container is written as what is read as that node, no text is written
    behind a text, and the first character is not dropped as a byte order mark. -/
structure Legible (t : Tree) : Prop where
  linked : t.Linked
  container : t.kind root = .container
  alone : ∀ x, t.Within root x → x ≠ root → t.children x = [] → (t.kind x).ReadAlone
  around : ∀ x, t.Within root x → x ≠ root → t.children x ≠ [] → ∃ name as, t.kind x = .element name as ∧ Kind.ReadAround name as
  apart : ∀ x, t.Within root x → (t.kinds x).IsChain Kind.Apart
  front : ∀ data, (t.kinds root).head? = some (.text data) → data.toList.head? ≠ some Text.byteOrderMark

namespace Legible

variable {t : Tree} (h : t.Legible)

include h

theorem apart_twigs {x : NodeId} (hx : t.Within root x) : ((t.children x).map t.twig).IsChain Twig.Apart := by
  have hkinds := h.apart x hx
  rw [kinds, List.isChain_map] at hkinds
  rw [List.isChain_map]
  refine hkinds.imp fun a b hab => ?_
  rw [h.linked.twig_eq a, h.linked.twig_eq b]
  exact hab

theorem twig {x : NodeId} (hx : t.Within root x) (hne : x ≠ root) : (t.twig x).Legible := by
  induction x using h.linked.below_induction with
  | step x ih =>
    rw [h.linked.twig_eq]
    by_cases hnil : t.children x = []
    · rw [hnil]
      exact .alone (h.alone x hx hne hnil)
    · obtain ⟨name, as, hkind, hread⟩ := h.around x hx hne hnil
      rw [hkind]
      refine .around hread (by simpa using hnil) ?_ (h.apart_twigs hx)
      intro w hw
      obtain ⟨c, hc, rfl⟩ := List.mem_map.mp hw
      have hparent := h.linked.parent_of_mem hc
      refine ih c hc (within_parent hx hparent) ?_
      rintro rfl
      rw [h.linked.top] at hparent
      cases hparent

theorem toMarkup_eq : t.toMarkup = String.ofList (Twig.sourceAll ((t.children root).map t.twig)) := by
  have hsource : t.write t.size root = (t.twig root).source := write_eq t t.size root
  rw [toMarkup, subtreeToMarkup, hsource, h.linked.twig_eq, h.container]
  rfl

/-- What is written for a legible tree is read as a tree of the same form. -/
theorem reread (source : Nat) : ∃ u, ofText t.toMarkup source = .ok u ∧ u.WellFormed ∧ u.twig root = t.twig root := by
  have hall : ∀ w ∈ (t.children root).map t.twig, w.Legible := by
    intro w hw
    obtain ⟨c, hc, rfl⟩ := List.mem_map.mp hw
    have hparent := h.linked.parent_of_mem hc
    refine h.twig (within_of_parent hparent) ?_
    rintro rfl
    rw [h.linked.top] at hparent
    cases hparent
  have hfront : ∀ data, ((t.children root).map t.twig).head? = some (.node (.text data) []) →
      data.toList.head? ≠ some Text.byteOrderMark := by
    intro data hdata
    refine h.front data ?_
    rw [kinds]
    cases hc : t.children root with
    | nil => rw [hc] at hdata; cases hdata
    | cons c cs =>
      rw [hc, List.map_cons, List.head?_cons, h.linked.twig_eq c, Option.some.injEq, Twig.node.injEq] at hdata
      exact congrArg some hdata.1
  obtain ⟨u, hu, hw, htwig⟩ := ofText_sourceAll hall (h.apart_twigs (within_refl t root)) hfront source
  rw [← h.toMarkup_eq] at hu
  refine ⟨u, hu, hw, ?_⟩
  rw [htwig, h.linked.twig_eq, h.container]

end Legible

end Tree

end MailMerge
