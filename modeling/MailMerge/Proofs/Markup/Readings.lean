/-
  MailMerge.Proofs.Markup.Readings — what reading a text can leave in a tree.

  Each node is read from one piece, and the pieces of a text are proper. So a node holds only
  what such a piece can hold (`Kind.AsRead`): a section no end of a section, a declaration no
  end of an instruction, a document type only brackets that close again, and an element a name
  without spaces and keys that differ. Data does not stand behind data; a tag does not make
  two texts neighbours either, since the element that it ends stands between them
  (`Reading.settled`).

  Proved: one piece keeps what holds of the nodes read so far (`Reading.step`), and so does
  the run over all pieces; every tree that is read is such a reading (`reading_of_ofText`).
-/

import Mathlib.Data.List.DropRight
import MailMerge.Proofs.Markup.Declarations
import MailMerge.Proofs.Markup.Kinds
import MailMerge.Proofs.Markup.Reread

namespace MailMerge

open MailMerge.Markup MailMerge.Text MailMerge.Tree

/-! ## Trimmed texts -/

namespace Text

theorem trim_append (cs : List Char) : ∃ before after : List Char, (∀ c ∈ before ++ after, isBlank c = true) ∧
    cs = before ++ trim cs ++ after := by
  refine ⟨cs.takeWhile isBlank, (trimStart cs).rtakeWhile isBlank, fun c hc => ?_, ?_⟩
  · rcases List.mem_append.mp hc with hc | hc
    · exact List.all_eq_true.mp List.all_takeWhile c hc
    · exact List.mem_rtakeWhile_imp hc
  · have hend : trim cs ++ (trimStart cs).rtakeWhile isBlank = trimStart cs := List.rdropWhile_append_rtakeWhile ..
    rw [List.append_assoc, hend]
    exact List.takeWhile_append_dropWhile.symm

theorem trim_trim (cs : List Char) : trim (trim cs) = trim cs := by
  have hstart : trimStart (trim cs) = trim cs := by
    refine List.dropWhile_eq_self_iff.mpr fun hpos => ?_
    have hkept : trim cs <+: trimStart cs := List.rdropWhile_prefix ..
    have hfront := List.dropWhile_eq_self_iff.mp (List.dropWhile_idempotent isBlank cs)
    rw [hkept.getElem hpos]
    exact hfront (Nat.lt_of_lt_of_le hpos hkept.length_le)
  have hend : trimEnd (trim cs) = trim cs := List.rdropWhile_idempotent ..
  rw [trim, hstart, hend]

end Text

/-! ## Single nodes -/

namespace Markup

theorem depthAfter_of_plain {cs : List Char} (h : ∀ c ∈ cs, c ≠ '<' ∧ c ≠ '>') (depth : Nat) : depthAfter depth cs = some depth := by
  induction cs with
  | nil => cases depth <;> rfl
  | cons c cs ih =>
    obtain ⟨hlt, hgt⟩ := h c List.mem_cons_self
    rw [depthAfter, if_neg hlt, if_neg hgt]
    · exact ih fun x hx => h x (List.mem_cons_of_mem c hx)
    · intro _ he
      exact hgt he

theorem depthAfter_trim {keyword body : List Char} (hkeyword : keyword.map Char.toUpper = doctypeKeyword)
    (h : depthAfter 0 (keyword ++ body) = some 0) : depthAfter 0 (trim body) = some 0 := by
  have hplain : ∀ c ∈ keyword, c ≠ '<' ∧ c ≠ '>' := by
    intro c hc
    have hupper : c.toUpper ∈ doctypeKeyword := hkeyword ▸ List.mem_map_of_mem hc
    constructor <;> rintro rfl <;> exact absurd hupper (by decide)
  have hblank : ∀ c, isBlank c = true → c ≠ '<' ∧ c ≠ '>' := by
    intro c hc
    constructor <;> rintro rfl <;> exact absurd hc (by decide)
  obtain ⟨before, after, hall, hsplit⟩ := trim_append body
  rw [depthAfter_append, depthAfter_of_plain hplain, Option.bind_some, hsplit, List.append_assoc, depthAfter_append,
    depthAfter_of_plain fun c hc => hblank c (hall c (List.mem_append_left _ hc)), Option.bind_some, depthAfter_append] at h
  cases hd : depthAfter 0 (trim body) with
  | none => rw [hd] at h; cases h
  | some depth =>
    rw [hd, Option.bind_some, depthAfter_of_plain fun c hc => hblank c (hall c (List.mem_append_right _ hc))] at h
    exact h

end Markup

namespace Kind

/-- What a node can hold when it has been read. -/
def AsRead : Kind → Prop
  | container => False
  | element name as => Named name as ∧ StartsTag (tag name as) ∧
      (Quoteless name as → quoteAfter none name.toList = some none ∧ ∀ a ∈ as, quoteAfter none a.1.toList = some none)
  | text data => data ≠ ""
  | cdata data => ¬ cdataEnd <:+: data.toList
  | comment body => ¬ commentEnd <:+: body.toList
  | instruction body => (Piece.instruction body.toList).Proper ∧ isDeclaration body.toList = false
  | declaration body => ¬ instructionEnd <:+: body.toList ∧ ∃ d : Declared, body.toList = d.text
  | doctype body => depthAfter 0 body.toList = some 0 ∧ trim body.toList = body.toList

theorem asRead_of_readElement {content : List Char} {k : Kind} (hstart : StartsTag content)
    (hquote : quoteAfter none content = some none) (h : readElement content = .ok k) : k.AsRead := by
  obtain ⟨name, as, rfl, hnamed, hname, -⟩ := named_of_readElement h
  exact ⟨hnamed, startsTag_tag hstart hname as, quoteAfter_of_readElement h hquote⟩

theorem asRead_of_readLeaf {p : Piece} (hp : p.Proper) {k : Kind} (h : readLeaf p = .ok (some k)) : k.AsRead := by
  cases p with
  | data raw =>
    rw [readLeaf] at h
    split at h
    · next ds hds =>
      cases h
      exact fun he => unescape_ne_nil hds hp.1 (by rw [← String.toList_ofList (l := ds), he]; rfl)
    · cases h
  | closed content =>
    obtain ⟨-, hstart, hquote⟩ := hp
    have hclosed : quoteAfter none content = some none := by
      rw [quoteAfter_append] at hquote
      cases hq : quoteAfter none content with
      | none => rw [hq] at hquote; cases hquote
      | some q =>
        rw [hq, Option.bind_some] at hquote
        cases q with
        | none => rfl
        | some c =>
          -- the slash cannot close a quote
          have hc : isQuote c = true := isQuote_of_quoteAfter (by intro x hx; cases hx) hq
          have hne : '/' ≠ c := by rintro rfl; exact absurd hc (by decide)
          rw [quoteAfter, if_neg hne] at hquote
          cases hquote
    cases hr : readElement content with
    | error e => rw [readLeaf, hr] at h; cases h
    | ok k' =>
      rw [readLeaf, hr] at h
      cases h
      exact asRead_of_readElement hstart hclosed hr
  | cdata body =>
    cases h
    rw [AsRead, String.toList_ofList]
    exact hp
  | comment body =>
    cases h
    rw [AsRead, String.toList_ofList]
    exact hp
  | instruction body =>
    rw [readLeaf] at h
    split at h
    · cases hr : readDeclaration body with
      | error e => rw [hr] at h; cases h
      | ok s =>
        rw [hr] at h
        cases h
        obtain ⟨d, hd, hparts⟩ := readDeclaration_spec hr
        refine ⟨?_, d, hd⟩
        rw [hd]
        exact Declared.not_infix_text fun a ha hin => hp.1 (hin.trans (hparts a ha))
    · next hno =>
      cases h
      rw [AsRead, String.toList_ofList]
      exact ⟨hp, by simpa using hno⟩
  | doctype keyword body =>
    cases h
    rw [AsRead, String.toList_ofList]
    exact ⟨depthAfter_trim hp.1 hp.2.2.1, trim_trim body⟩
  | _ => cases h

theorem isText_of_readLeaf {p : Piece} {k : Kind} (h : readLeaf p = .ok (some k)) (hk : k.isText = true) : p.isData = true := by
  cases p with
  | data raw => rfl
  | closed content =>
    cases hr : readElement content with
    | error e => rw [readLeaf, hr] at h; cases h
    | ok k' =>
      obtain ⟨name, as, rfl⟩ := isElement_of_readElement hr
      rw [readLeaf, hr] at h
      cases h
      cases hk
  | instruction body =>
    rw [readLeaf] at h
    split at h
    · cases hr : readDeclaration body with
      | error e => rw [hr] at h; cases h
      | ok s => rw [hr] at h; cases h; cases hk
    · cases h; cases hk
  | _ => cases h <;> cases hk

end Kind

/-! ## One piece -/

namespace Tree

/-- No text is the last child: data can be read there. -/
def Open (t : Tree) (p : NodeId) : Prop := ∀ k ∈ (t.kinds p).getLast?, k.isText = false

/-- A part of which some pieces have been read, with the elements of `path` still open. -/
structure Reading (path : List NodeId) (t : Tree) : Prop where
  wellFormed : t.WellFormed
  container : t.kind root = .container
  asRead : ∀ x < t.size, x ≠ root → (t.kind x).AsRead
  opened : ∀ x ∈ path, t.isElement x = true
  distinct : (path ++ [root]).Nodup
  apart : ∀ x, (t.kinds x).IsChain Kind.Apart
  settled : ∀ x ∈ path ++ [root], x ≠ innermost root path → t.Open x

theorem reading_empty : Reading [] empty where
  wellFormed := wellFormed_empty
  container := rfl
  asRead x hx hne := by
    have hroot : x = root := Nat.lt_one_iff.mp hx
    exact absurd hroot hne
  opened x hx := absurd hx List.not_mem_nil
  distinct := by simp
  apart x := by
    have hnil : empty.children x = [] := by
      by_cases hx : x < empty.size
      · rw [Nat.lt_one_iff.mp hx]
        rfl
      · exact children_of_size_le (Nat.le_of_not_lt hx)
    rw [kinds, hnil]
    exact .nil
  settled x hx hne := by
    rw [List.nil_append, List.mem_singleton] at hx
    exact absurd hx hne

namespace Reading

variable {path : List NodeId} {t : Tree} (h : Reading path t)

include h

theorem hosts : Hosts t (innermost root path) := by
  cases path with
  | nil => exact ⟨h.wellFormed.rooted, Or.inl rfl⟩
  | cons id rest => exact hosts_of_isElement (h.opened id List.mem_cons_self)

theorem lt_size {x : NodeId} (hx : x ∈ path ++ [root]) : x < t.size := by
  rcases List.mem_append.mp hx with hx | hx
  · exact lt_size_of_isElement (h.opened x hx)
  · rw [List.mem_singleton.mp hx]
    exact h.wellFormed.rooted

theorem kinds_addNode (k : Kind) (span : Span) (q : NodeId) : (addNode t (innermost root path) k span).2.kinds q =
    if q = innermost root path then t.kinds q ++ [k] else t.kinds q := by
  have hold : ∀ p, (t.children p).map (addNode t (innermost root path) k span).2.kind = t.kinds p := by
    intro p
    refine List.map_congr_left fun c hc => ?_
    rw [kind_addNode, if_neg (Nat.ne_of_lt (h.wellFormed.lt_size_of_mem hc))]
  rw [kinds, children_addNode h.wellFormed h.hosts]
  split
  · next hq => rw [List.map_append, List.map_singleton, hold, kind_addNode, if_pos rfl, hq]
  · rw [hold]

/-- A new node without children. -/
theorem leaf {k : Kind} (hk : k.AsRead) (hopen : k.isText = true → t.Open (innermost root path)) (span : Span) :
    Reading path (addNode t (innermost root path) k span).2 where
  wellFormed := h.wellFormed.createBelow h.hosts k span
  container := by
    rw [kind_addNode, if_neg (Nat.ne_of_lt h.wellFormed.rooted)]
    exact h.container
  asRead x hx hne := by
    rw [size_addNode] at hx
    rw [kind_addNode]
    split
    · exact hk
    · next hold => exact h.asRead x (Nat.lt_of_le_of_ne (Nat.le_of_lt_succ hx) hold) hne
  opened x hx := by
    have hkind : (addNode t (innermost root path) k span).2.kind x = t.kind x := by
      rw [kind_addNode, if_neg (Nat.ne_of_lt (h.lt_size (List.mem_append_left _ hx)))]
    rw [isElement_congr hkind]
    exact h.opened x hx
  distinct := h.distinct
  apart x := by
    rw [h.kinds_addNode]
    split
    · next hx =>
      refine List.isChain_append.mpr ⟨h.apart x, .singleton k, ?_⟩
      intro last hlast k' hk' htext
      cases hk'
      rw [Bool.eq_false_iff]
      intro hktext
      rw [hopen hktext last (hx ▸ hlast)] at htext
      cases htext
    · exact h.apart x
  settled x hx hne := by
    rw [Open, h.kinds_addNode, if_neg hne]
    exact h.settled x hx hne

/-- A new element, whose children are read next. -/
theorem enter {name : String} {as : List (String × String)} (hk : (Kind.element name as).AsRead) (span : Span) :
    Reading (t.size :: path) (addNode t (innermost root path) (.element name as) span).2 ∧
      (addNode t (innermost root path) (.element name as) span).2.Open t.size := by
  have hleaf := h.leaf hk (fun htext => by cases htext) span
  have hnew : ∀ x ∈ path ++ [root], x ≠ t.size := fun x hx => Nat.ne_of_lt (h.lt_size hx)
  have hopen : (addNode t (innermost root path) (.element name as) span).2.Open t.size := by
    rw [Open, kinds, children_new_addNode h.wellFormed h.hosts]
    intro k hlast
    cases hlast
  refine ⟨⟨hleaf.wellFormed, hleaf.container, hleaf.asRead, fun x hx => ?_, ?_, hleaf.apart, fun x hx hne => ?_⟩, hopen⟩
  · rcases List.mem_cons.mp hx with rfl | hx
    · rw [isElement, name?, kind_addNode, if_pos rfl]
      rfl
    · exact hleaf.opened x hx
  · rw [List.cons_append, List.nodup_cons]
    exact ⟨fun hmem => hnew t.size hmem rfl, h.distinct⟩
  · have hold : x ∈ path ++ [root] := (List.mem_cons.mp hx).resolve_left hne
    by_cases hin : x = innermost root path
    · -- the new element stands behind everything that was there
      rw [Open, h.kinds_addNode, if_pos hin]
      intro k hlast
      rw [List.getLast?_concat] at hlast
      cases hlast
      rfl
    · exact hleaf.settled x hold hin

end Reading

/-- The end of the innermost open element, which is the last child where reading goes on. -/
theorem Reading.leave {id : NodeId} {path : List NodeId} {t : Tree} (h : Reading (id :: path) t) (span : Span) :
    Reading path (t.setSpan id span) ∧ (t.setSpan id span).Open (innermost root path) := by
  have hkinds : ∀ x, (t.setSpan id span).kinds x = t.kinds x := by
    intro x
    rw [kinds, children_setSpan]
    exact List.map_congr_left fun c _ => kind_setSpan t id c span
  have hopen : ∀ x ∈ path ++ [root], (t.setSpan id span).Open x := by
    intro x hx
    rw [Open, hkinds]
    refine h.settled x (List.mem_cons_of_mem id hx) ?_
    rintro rfl
    exact (List.nodup_cons.mp h.distinct).1 hx
  refine ⟨⟨(sameLinks_setSpan t id span).wellFormed h.wellFormed, ?_, fun x hx hne => ?_, fun x hx => ?_,
    (List.nodup_cons.mp h.distinct).2, fun x => ?_, fun x hx _ => hopen x hx⟩, hopen _ ?_⟩
  · rw [kind_setSpan]
    exact h.container
  · rw [size_setSpan] at hx
    rw [kind_setSpan]
    exact h.asRead x hx hne
  · rw [isElement_congr (kind_setSpan t id x span)]
    exact h.opened x (List.mem_cons_of_mem id hx)
  · rw [hkinds]
    exact h.apart x
  · cases path with
    | nil => exact List.mem_cons_self
    | cons x path => exact List.mem_cons_self

/-- One piece. Data leaves a text behind, after which no data can be read; nothing else does. -/
theorem Reading.step {path : List NodeId} {t : Tree} (h : Reading path t) {p : Piece} (hp : p.Proper)
    (hopen : p.isData = true → t.Open (innermost root path)) {g : Growth} (hg : growth t path p = .ok g) (span : Span) :
    Reading (grow root path span t g).1 (grow root path span t g).2 ∧
      (p.isData = false → (grow root path span t g).2.Open (innermost root (grow root path span t g).1)) := by
  rcases growth_cases hg with ⟨content, name, as, rfl, hread, rfl⟩ | ⟨k, hread, rfl⟩ | ⟨content, id, rest, rfl, rfl, rfl⟩
  · obtain ⟨hnext, hready⟩ := h.enter (Kind.asRead_of_readElement hp.1 hp.2.1 hread) span
    exact ⟨hnext, fun _ => hready⟩
  · have hdata : k.isText = true → p.isData = true := Kind.isText_of_readLeaf hread
    refine ⟨h.leaf (Kind.asRead_of_readLeaf hp hread) (fun htext => hopen (hdata htext)) span, fun hno => ?_⟩
    have hkinds := h.kinds_addNode k span (innermost root path)
    rw [if_pos rfl] at hkinds
    intro last hlast
    have hlast' : last ∈ (t.kinds (innermost root path) ++ [k]).getLast? := hkinds ▸ hlast
    rw [List.getLast?_concat] at hlast'
    cases hlast'
    rw [Bool.eq_false_iff]
    intro htext
    rw [hdata htext] at hno
    cases hno
  · obtain ⟨hnext, hready⟩ := h.leave ((t.span id).extendTo span.stop)
    exact ⟨hnext, fun _ => hready⟩

/-! ## All pieces -/

theorem Reading.addPieces {path path' : List NodeId} {t u : Tree} (h : Reading path t) {ps : List Placed}
    (hproper : ∀ p ∈ ps, p.piece.Proper) (hchain : (ps.map (·.piece)).IsChain Piece.Apart)
    (hopen : ∀ p ∈ ps.head?, p.piece.isData = true → t.Open (innermost root path))
    (hrun : Markup.addPieces root path t ps = (.ok path', u)) : Reading path' u := by
  induction ps generalizing path t with
  | nil =>
    cases hrun
    exact h
  | cons p ps ih =>
    obtain ⟨hnext, hchain⟩ := List.isChain_cons.mp hchain
    rw [Markup.addPieces] at hrun
    cases hg : growth t path p.piece with
    | error e => rw [hg] at hrun; cases hrun
    | ok g =>
      rw [hg] at hrun
      obtain ⟨hread, hready⟩ := h.step (hproper p List.mem_cons_self) (hopen p rfl) hg p.span
      refine ih hread (fun q hq => hproper q (List.mem_cons_of_mem p hq)) hchain (fun q hq hdata => hready ?_) hrun
      rw [Bool.eq_false_iff]
      intro hp
      have hq' : q.piece ∈ (ps.map (·.piece)).head? := by
        rw [List.head?_map]
        exact Option.mem_map_of_mem _ hq
      rw [hnext q.piece hq' hp] at hdata
      cases hdata

/-- A text that can be read is cut into pieces that can be read one by one, none left open. -/
theorem addPieces_of_ofText {text : String} {source : Nat} {t : Tree} (h : ofText text source = .ok t) :
    Markup.addPieces root [] empty (pieces text.toList).1 = (.ok [], t) := by
  unfold ofText readInto at h
  generalize pieces text.toList = found at h ⊢
  obtain ⟨ps, broken⟩ := found
  simp only at h ⊢
  generalize Markup.addPieces root [] empty ps = grown at h ⊢
  obtain ⟨result, u⟩ := grown
  cases result with
  | error e => cases h
  | ok path =>
    cases broken with
    | some b => cases h
    | none =>
      cases path with
      | cons id path => cases h
      | nil => cases h; rfl

theorem reading_of_ofText {text : String} {source : Nat} {t : Tree} (h : ofText text source = .ok t) : Reading [] t := by
  obtain ⟨hproper, hchain⟩ := proper_of_pieces text.toList
  refine reading_empty.addPieces hproper hchain (fun p _ _ k hlast => ?_) (addPieces_of_ofText h)
  cases hlast

end Tree

end MailMerge
