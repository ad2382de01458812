/-
  MailMerge.Proofs.Markup.Written — what is written of a twig.

  The text of a node depends on its twig only, and is the text of some pieces: an element with
  children is written between two tags, everything else as one piece of its own kind
  (`Twig.pieces`). What is written may not be what is read: only a twig whose pieces are proper
  and are read as the nodes they were written for is legible (`Twig.Legible`), and two texts
  side by side are read as one.

  Proved: a legible twig is written as its pieces (`source_eq`), which are the pieces of that
  text when no text is followed by a text (`proper_pieces`, `apart_pieces`).
-/

import MailMerge.Proofs.Markup.Tags
import MailMerge.Proofs.Tree.Copy

namespace MailMerge

open MailMerge.Markup

/-! ## Texts -/

namespace Twig

mutual

/-- The text of a twig. -/
def source : Twig → List Char
  | node k twigs => Markup.writeNode k (sourceAll twigs) twigs.isEmpty

def sourceAll : List Twig → List Char
  | [] => []
  | w :: ws => source w ++ sourceAll ws

end

theorem sourceAll_eq (ws : List Twig) : sourceAll ws = ws.flatMap source := by
  induction ws with
  | nil => rfl
  | cons w ws ih => rw [sourceAll, ih, List.flatMap_cons]

/-- Around the children of a node stands what is written for the node itself. -/
theorem exists_sourceAll {k : Kind} (hk : k = .container ∨ ∃ name as, k = .element name as) {ws : List Twig} (hws : ws ≠ []) :
    ∃ front back, (node k ws).source = front ++ sourceAll ws ++ back := by
  rcases hk with rfl | ⟨name, as, rfl⟩
  · exact ⟨[], [], by simp [source, writeNode]⟩
  · refine ⟨'<' :: name.toList ++ as.flatMap writeAttribute ++ ['>'], '<' :: '/' :: name.toList ++ ['>'], ?_⟩
    simp [source, writeNode, hws]

end Twig

namespace Tree

theorem write_eq (t : Tree) (n : Nat) (id : NodeId) : t.write n id = (t.twigTo n id).source := by
  induction n generalizing id with
  | zero => rfl
  | succ n ih =>
    rw [write, twigTo, Twig.source, Twig.sourceAll_eq, List.flatMap_map, List.isEmpty_map, funext ih]

/-- Nodes with the same twig are written in the same way. -/
theorem subtreeToMarkup_congr {t u : Tree} {a b : NodeId} (h : u.twig b = t.twig a) : u.subtreeToMarkup b = t.subtreeToMarkup a := by
  rw [subtreeToMarkup, subtreeToMarkup, write_eq, write_eq]
  exact congrArg (fun w => String.ofList w.source) h

/-- What stands before the fence is written as before. -/
theorem Beyond.subtreeToMarkup_eq {t u : Tree} (h : Beyond t.size t u) (ht : t.WellFormed) {a : NodeId} (ha : a < t.size) :
    u.subtreeToMarkup a = t.subtreeToMarkup a := by
  refine subtreeToMarkup_congr (twig_congr ht h.wellFormed fun d hd => ?_)
  have hlt : d < t.size := (fenced_size ht).lt_of_within ha hd
  exact ⟨h.kind_eq hlt, h.children_eq hlt⟩

/-- What is written of a node stands in what is written of each node above it. -/
theorem exists_source_of_within {t : Tree} (h : t.WellFormed) (hroot : t.kind root = .container) {p x : NodeId} (hw : t.Within p x) :
    ∃ front back, (t.twig p).source = front ++ (t.twig x).source ++ back := by
  induction p using h.below_induction with
  | step p ih =>
    by_cases hxp : x = p
    · subst hxp
      exact ⟨[], [], by simp⟩
    · obtain ⟨c, hc, hcx⟩ := exists_child_of_within hw hxp
      have hmem := h.mem_of_parent hc
      obtain ⟨inner, outer, hinner⟩ := ih c hmem hcx
      obtain ⟨before, after, hrow⟩ := List.append_of_mem hmem
      have hkind : t.kind p = .container ∨ ∃ name as, t.kind p = .element name as := by
        rcases h.inner p c hc with rfl | hel
        · exact Or.inl hroot
        · exact Or.inr (kind_of_isElement hel)
      have hne : (t.children p).map t.twig ≠ [] := by simp [hrow]
      obtain ⟨front, back, hsource⟩ := Twig.exists_sourceAll hkind hne
      rw [h.twig_eq, hsource, Twig.sourceAll_eq, hrow]
      refine ⟨front ++ (before.map t.twig).flatMap Twig.source ++ inner, outer ++ (after.map t.twig).flatMap Twig.source ++ back, ?_⟩
      simp [hinner]

/-- A text of the part is written with its characters escaped. -/
theorem exists_escapeText_of_within {t : Tree} (h : t.WellFormed) (hroot : t.kind root = .container) {x : NodeId} (hx : t.Within root x)
    {data : String} (hdata : t.kind x = .text data) : ∃ front back, t.toMarkup.toList = front ++ escapeText data.toList ++ back := by
  obtain ⟨front, back, hsource⟩ := exists_source_of_within h hroot hx
  have htext : (t.twig x).source = escapeText data.toList := by
    rw [h.twig_eq, hdata]
    rfl
  refine ⟨front, back, ?_⟩
  rw [toMarkup, subtreeToMarkup, String.toList_ofList, write_eq, ← htext]
  exact hsource

end Tree

/-! ## Pieces -/

namespace Kind

/-- What a node without children is written as; the container is not written. -/
def piece : Kind → Piece
  | container => .closed []
  | element name as => .closed (tag name as)
  | text data => .data (escapeText data.toList)
  | cdata data => .cdata data.toList
  | comment body => .comment body.toList
  | instruction body | declaration body => .instruction body.toList
  | doctype body => .doctype doctypeKeyword (' ' :: body.toList)

def isText : Kind → Bool
  | text _ => true
  | _ => false

/-- A text is not followed by another text. -/
def Apart (k k' : Kind) : Prop := k.isText = true → k'.isText = false

/-- What is written for a node without children is read as that node. -/
structure ReadAlone (k : Kind) : Prop where
  proper : k.piece.Proper
  reads : readLeaf k.piece = .ok (some k)

/-- What is written around the children of an element is read as that element. -/
structure ReadAround (name : String) (as : List (String × String)) : Prop where
  opening : (Piece.opening (tag name as)).Proper
  reads : readElement (tag name as) = .ok (.element name as)
  closing : (Piece.closing name.toList).Proper
  closes : closingName name.toList = name

theorem isData_piece (k : Kind) : k.piece.isData = k.isText := by cases k <;> rfl

theorem ReadAlone.ne_container {k : Kind} (h : k.ReadAlone) : k ≠ .container := by
  rintro rfl
  exact h.proper.1 rfl

theorem source_piece {k : Kind} (hk : k ≠ .container) : k.piece.source = writeNode k [] true := by
  cases k with
  | container => exact absurd rfl hk
  | element name as => simp [piece, Piece.source, writeNode, tag]
  | _ => rfl

end Kind

namespace Twig

def Apart (w w' : Twig) : Prop := w.kind.Apart w'.kind

inductive Legible : Twig → Prop
  | alone {k : Kind} : k.ReadAlone → Legible (node k [])
  | around {name : String} {as : List (String × String)} {ws : List Twig} : Kind.ReadAround name as → ws ≠ [] →
      (∀ w ∈ ws, Legible w) → ws.IsChain Apart → Legible (node (.element name as) ws)

mutual

def pieces : Twig → List Piece
  | node k ws =>
    if ws.isEmpty then [k.piece]
    else
      match k with
      | .element name as => .opening (tag name as) :: piecesAll ws ++ [.closing name.toList]
      | k => [k.piece]

def piecesAll : List Twig → List Piece
  | [] => []
  | w :: ws => pieces w ++ piecesAll ws

end

theorem pieces_alone (k : Kind) : (node k []).pieces = [k.piece] := by simp [pieces]

theorem pieces_around (name : String) (as : List (String × String)) {ws : List Twig} (hws : ws ≠ []) :
    (node (.element name as) ws).pieces = .opening (tag name as) :: piecesAll ws ++ [.closing name.toList] := by
  simp [pieces, hws]

theorem source_around (name : String) (as : List (String × String)) {ws : List Twig} (hws : ws ≠ []) :
    (node (.element name as) ws).source =
      (Piece.opening (tag name as)).source ++ sourceAll ws ++ (Piece.closing name.toList).source := by
  simp [source, hws, writeNode, Piece.source, tag]

theorem sourceAll_eq_of {ws : List Twig} (h : ∀ w ∈ ws, w.source = w.pieces.flatMap Piece.source) :
    sourceAll ws = (piecesAll ws).flatMap Piece.source := by
  induction ws with
  | nil => rfl
  | cons w ws ih =>
    rw [sourceAll, piecesAll, List.flatMap_append, h w List.mem_cons_self, ih fun w' hw' => h w' (List.mem_cons_of_mem w hw')]

/-- A legible twig is written as its pieces. -/
theorem Legible.source_eq {w : Twig} (h : w.Legible) : w.source = w.pieces.flatMap Piece.source := by
  induction h with
  | @alone k hk =>
    rw [pieces_alone, List.flatMap_singleton, Kind.source_piece hk.ne_container, source]
    rfl
  | @around name as ws _ hws _ _ ih =>
    rw [pieces_around name as hws, source_around name as hws, sourceAll_eq_of ih]
    simp

theorem mem_piecesAll {p : Piece} {ws : List Twig} : p ∈ piecesAll ws ↔ ∃ w ∈ ws, p ∈ w.pieces := by
  induction ws with
  | nil => simp [piecesAll]
  | cons w ws ih => simp [piecesAll, ih]

theorem Legible.proper_pieces {w : Twig} (h : w.Legible) : ∀ p ∈ w.pieces, p.Proper := by
  induction h with
  | @alone k hk =>
    intro p hp
    rw [pieces_alone, List.mem_singleton] at hp
    exact hp ▸ hk.proper
  | @around name as ws haround hws _ _ ih =>
    intro p hp
    rw [pieces_around name as hws] at hp
    simp only [List.cons_append, List.mem_cons, List.mem_append, List.not_mem_nil, or_false] at hp
    rcases hp with rfl | hp | rfl
    · exact haround.opening
    · obtain ⟨w, hw, hp⟩ := mem_piecesAll.mp hp
      exact ih w hw p hp
    · exact haround.closing

theorem ends_pieces {w : Twig} (h : w.Legible) : (∀ p, w.pieces.head? = some p → p.isData = w.kind.isText) ∧
    (∀ p, w.pieces.getLast? = some p → p.isData = w.kind.isText) ∧ w.pieces ≠ [] := by
  cases h with
  | @alone k hk =>
    rw [pieces_alone]
    refine ⟨?_, ?_, by simp⟩
    · intro p hp
      cases hp
      exact k.isData_piece
    · intro p hp
      cases hp
      exact k.isData_piece
  | @around name as ws haround hws _ _ =>
    rw [pieces_around name as hws]
    refine ⟨?_, ?_, by simp⟩
    · intro p hp
      cases hp
      rfl
    · intro p hp
      rw [List.getLast?_concat] at hp
      cases hp
      rfl

theorem apart_piecesAll {ws : List Twig} (hws : ∀ w ∈ ws, w.Legible) (hin : ∀ w ∈ ws, w.pieces.IsChain Piece.Apart)
    (hchain : ws.IsChain Apart) : (piecesAll ws).IsChain Piece.Apart := by
  induction ws with
  | nil => exact .nil
  | cons w ws ih =>
    obtain ⟨hnext, hchain⟩ := List.isChain_cons.mp hchain
    rw [piecesAll]
    refine List.isChain_append.mpr ⟨hin w List.mem_cons_self,
      ih (fun w' hw' => hws w' (List.mem_cons_of_mem w hw')) (fun w' hw' => hin w' (List.mem_cons_of_mem w hw')) hchain, ?_⟩
    intro p hp q hq hdata
    cases ws with
    | nil => cases hq
    | cons w' ws =>
      have hw' := ends_pieces (hws w' (by simp))
      have hhead : w'.pieces.head? = some q := by
        rw [piecesAll, List.head?_append] at hq
        cases hp' : w'.pieces.head? with
        | none => exact absurd (List.head?_eq_none_iff.mp hp') hw'.2.2
        | some p' => rw [hp'] at hq; exact hq
      rw [(ends_pieces (hws w List.mem_cons_self)).2.1 p hp] at hdata
      rw [hw'.1 q hhead]
      exact hnext w' rfl hdata

theorem Legible.apart_pieces {w : Twig} (h : w.Legible) : w.pieces.IsChain Piece.Apart := by
  induction h with
  | @alone k hk =>
    rw [pieces_alone]
    exact .singleton _
  | @around name as ws haround hws hin hchain ih =>
    rw [pieces_around name as hws]
    refine List.isChain_append.mpr ⟨List.isChain_cons.mpr ⟨?_, apart_piecesAll hin ih hchain⟩, .singleton _, ?_⟩
    · intro p hp hdata
      cases hdata
    · intro p hp q hq hdata
      cases hq
      rfl

end Twig

end MailMerge
