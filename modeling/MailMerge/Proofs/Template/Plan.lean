/-
  MailMerge.Proofs.Template.Plan — the statements that a template is read as.

  The paragraphs of a template stand as siblings in a tree. Whatever the nesting, each
  marker paragraph has one field, and each block reaches from one marker paragraph to the
  next one of its group; so the statements of a scan can be told from the template.

  Proved: the scan of a template's paragraphs has the planned statements, and within a
  block the fields of a template fill it (`exists_plan`).
-/

import MailMerge.Proofs.Outline.Groups
import MailMerge.Proofs.Template.Basic

namespace MailMerge

open MailMerge.Tree

namespace Field

/-- The field of a simple field element. -/
def simpleAt (t : Tree) (id : NodeId) (expression : String) : Field :=
  ⟨id, expression, id, [], .simple, true, (t.span id).extendTo (t.span id).stop⟩

/-- The valid fields whose markers are among the nodes. -/
def among (t : Tree) (ids : List NodeId) : List Field := (ids.filterMap (ofMarker? t)).filter (·.valid)

theorem among_append (t : Tree) (ids ids' : List NodeId) : among t (ids ++ ids') = among t ids ++ among t ids' := by
  rw [among, List.filterMap_append, List.filter_append]; rfl

theorem ofMarker?_of_plain {t : Tree} {id : NodeId} (h : (t.kind id).opensField = false) : ofMarker? t id = none := by
  rw [← opensField_eq, opensField, Bool.or_eq_false_iff] at h
  rw [ofMarker?, h.1, h.2]
  rfl

theorem among_of_plain {t : Tree} {ids : List NodeId} (h : ∀ d ∈ ids, (t.kind d).opensField = false) : among t ids = [] := by
  have hnone : ids.filterMap (ofMarker? t) = [] := List.filterMap_eq_nil_iff.mpr fun d hd => ofMarker?_of_plain (h d hd)
  rw [among, hnone]
  rfl

theorem ofMarker?_simple {t : Tree} {id : NodeId} {as : List (String × String)} {e : String}
    (hk : t.kind id = .element Word.simpleField as) (hr : Instruction.ofAttributes? as = some e) :
    ofMarker? t id = some (simpleAt t id e) := by
  obtain ⟨s, hs, he⟩ := Option.bind_eq_some_iff.mp hr
  have hnamed : t.isNamed Word.simpleField id = true := by rw [isNamed_of_kind hk]; exact beq_self_eq_true _
  have hattribute : t.attribute? id Word.fieldInstruction = some s := by rw [attribute?, hk]; exact hs
  rw [ofMarker?, if_pos hnamed, simple?, hattribute, Option.map_some, ofInstruction, he]
  rfl

end Field

namespace Tree

theorem fields_eq_among (t : Tree) (id : NodeId) : t.fields id = Field.among t (t.descendants id) := rfl

/-- The one field of a marker paragraph. -/
def fieldIn (t : Tree) (c : NodeId) : Field := (t.fields c).headD (Field.simpleAt t c "")

variable {t : Tree}

/-- A simple field that displays no fields is the only one within it. -/
theorem WellFormed.among_subtree (h : t.WellFormed) {x : NodeId} {as : List (String × String)} {ws : List Twig} {e : String}
    (hx : t.twig x = .node (.element Word.simpleField as) ws) (hr : Instruction.ofAttributes? as = some e)
    (hws : Twig.hasIn Kind.opensField ws = false) : Field.among t (t.subtree x) = [Field.simpleAt t x e] := by
  obtain ⟨hk, hch⟩ := h.twig_node.mp hx
  have hone : Field.among t [x] = [Field.simpleAt t x e] := by
    rw [Field.among, List.filterMap_cons_some (Field.ofMarker?_simple hk hr)]
    rfl
  rw [← hch, h.hasIn_twigs] at hws
  rw [h.subtree_eq, ← List.singleton_append, Field.among_append, Field.among_of_plain hws, hone]
  rfl

/-- Below a marker paragraph there is one field, and it is a child of the paragraph. -/
theorem WellFormed.fields_marker (h : t.WellFormed) {c : NodeId} {m : Marker} (hc : t.twig c = m.twig) :
    ∃ x, t.parent x = some c ∧ t.fields c = [Field.simpleAt t x m.expression] := by
  obtain ⟨-, hch⟩ := h.twig_node.mp hc
  obtain ⟨xs, more, hsplit, hbefore, hmore⟩ := List.map_eq_append_iff.mp hch
  obtain ⟨x, ys, rfl, hx, hafter⟩ := List.map_eq_cons_iff.mp hmore
  have hplain := m.plain
  rw [Twig.hasIn_append, Twig.hasIn_append, Bool.or_eq_false_iff, Bool.or_eq_false_iff] at hplain
  obtain ⟨⟨hb, hr⟩, ha⟩ := hplain
  rw [← hbefore, h.hasIn_twigs] at hb
  rw [← hafter, h.hasIn_twigs] at ha
  refine ⟨x, h.parent_of_mem (by rw [hsplit]; simp), ?_⟩
  rw [fields_eq_among, h.descendants_eq, hsplit, List.flatMap_append, List.flatMap_cons, Field.among_append,
    Field.among_append, Field.among_of_plain hb, Field.among_of_plain ha, h.among_subtree hx m.reads hr]
  rfl

end Tree

namespace Block

/-- The block between two marker paragraphs. -/
def ofParagraphs (t : Tree) (c : NodeId) (body : List NodeId) (e : NodeId) : Block :=
  ⟨.paragraph, t.fieldIn c, t.fieldIn e, c, e, body⟩

end Block

/-! ## Plans -/

/-- The statements of an ordinary paragraph, whose children are given. -/
inductive Piece.Planned (t : Tree) : List Piece → List NodeId → List Statement → Prop
  | nil : Planned t [] [] []
  | plain {w : Twig} {h : w.has Kind.opensField = false} {ps : List Piece} {x : NodeId} {xs : List NodeId}
      {ss : List Statement} : t.twig x = w → Planned t ps xs ss → Planned t (.plain w h :: ps) (x :: xs) ss
  | insertion {i : Insertion} {ps : List Piece} {x : NodeId} {xs : List NodeId} {ss : List Statement} :
      t.twig x = i.twig → Planned t ps xs ss →
      Planned t (.insertion i :: ps) (x :: xs) (.insertion (Field.simpleAt t x i.expression) i.operand :: ss)

/-- The branches behind the first one, from their first marker paragraph on. -/
inductive Branches.Planned (t : Tree) : Branches → List NodeId → List Condition → Option Block → Prop
  | stop {marker : Marker} {m : NodeId} : t.twig m = marker.twig → Planned t (.stop marker) [m] [] none
  | guarded {marker : Marker} {guard : Guard} {operand : Operand} {body : Template} {more : Branches} {m e : NodeId}
      {bs ms : List NodeId} {conditions : List Condition} {other : Option Block} : t.twig m = marker.twig →
      bs.map t.twig = body.paragraphs → Planned t more (e :: ms) conditions other →
      Planned t (.guarded marker guard operand body more) (m :: bs ++ e :: ms)
        (⟨operand, guard.predicate, Block.ofParagraphs t m bs e⟩ :: conditions) other
  | otherwise {marker stop : Marker} {body : Template} {m e : NodeId} {bs : List NodeId} : t.twig m = marker.twig →
      bs.map t.twig = body.paragraphs → t.twig e = stop.twig →
      Planned t (.otherwise marker body stop) (m :: bs ++ [e]) [] (some (Block.ofParagraphs t m bs e))

/-- A conditional statement with these branches. -/
def Statement.Chooses (st : Statement) (c : Condition) (conditions : List Condition) (other : Option Block) : Prop :=
  st = .choice (c :: conditions) other ∨ st = .condition c ∧ conditions = [] ∧ other = none

/-- The statements that the paragraphs of a template make at the top level of a scan. -/
inductive Template.Planned (t : Tree) : Template → List NodeId → List Statement → Prop
  | nil : Planned t .nil [] []
  | paragraph {p : Paragraph} {rest : Template} {c : NodeId} {cs : List NodeId} {ss ss' : List Statement} :
      t.kind c = .element Word.paragraph p.attributes → Piece.Planned t p.pieces (t.children c) ss →
      Planned t rest cs ss' → Planned t (.paragraph p rest) (c :: cs) (ss ++ ss')
  | loop {start stop : Marker} {list : Operand} {iterator : String} {body rest : Template} {c e : NodeId}
      {bs cs : List NodeId} {ss : List Statement} : bs.map t.twig = body.paragraphs → Planned t rest cs ss →
      Planned t (.loop start list iterator body stop rest) (c :: bs ++ e :: cs)
        (.loop list iterator (Block.ofParagraphs t c bs e) :: ss)
  | conditional {start : Marker} {guard : Guard} {operand : Operand} {body rest : Template} {more : Branches} {c m : NodeId}
      {bs ms cs : List NodeId} {conditions : List Condition} {other : Option Block} {st : Statement} {ss : List Statement} :
      bs.map t.twig = body.paragraphs → Branches.Planned t more (m :: ms) conditions other →
      st.Chooses ⟨operand, guard.predicate, Block.ofParagraphs t c bs m⟩ conditions other → Planned t rest cs ss →
      Planned t (.conditional start guard operand body more rest) (c :: bs ++ m :: ms ++ cs) (st :: ss)
  | comment {start stop : Marker} {body rest : Template} {c e : NodeId} {bs cs : List NodeId} {ss : List Statement} :
      Planned t rest cs ss →
      Planned t (.comment start body stop rest) (c :: bs ++ e :: cs) (.comment (Block.ofParagraphs t c bs e) :: ss)

/-! ## Reading a template -/

theorem Block.fieldIn_marker {t : Tree} (h : t.WellFormed) {c : NodeId} {m : Marker} (hc : t.twig c = m.twig) :
    t.fields c = [t.fieldIn c] ∧ (t.fieldIn c).expression = m.expression ∧
      ∃ x, t.parent x = some c ∧ t.fieldIn c = Field.simpleAt t x m.expression := by
  obtain ⟨x, hx, hf⟩ := h.fields_marker hc
  have hin : t.fieldIn c = Field.simpleAt t x m.expression := by rw [fieldIn, hf]; rfl
  exact ⟨by rw [hf, hin], by rw [hin]; rfl, x, hx, hin⟩

/-- A field of a paragraph has the paragraph and its ancestors above it. -/
theorem Field.ancestor?_simpleAt {t : Tree} (h : t.WellFormed) {c x : NodeId} {as : List (String × String)} {e : String}
    (hx : t.parent x = some c) (hk : t.kind c = .element Word.paragraph as) (name : String) :
    (Field.simpleAt t x e).ancestor? t name = if Word.paragraph == name then some c else t.findAncestor? c name := by
  show t.findAncestor? x name = _
  rw [h.findAncestor?_of_parent hx, isNamed_of_kind hk]
  rfl

/-- Two marker paragraphs that are siblings enclose what stands between them. -/
theorem Block.resolve?_ofParagraphs {t : Tree} (h : t.WellFormed) {p c e : NodeId} {bs : List NodeId} {m m' : Marker}
    (hin : c :: bs ++ [e] <:+: t.children p) (hc : t.twig c = m.twig) (he : t.twig e = m'.twig)
    (hbs : ∀ x ∈ bs, t.isElement x = true) : Block.resolve? t (t.fieldIn c) (t.fieldIn e) = some (Block.ofParagraphs t c bs e) := by
  obtain ⟨before, after, hp⟩ := hin
  replace hp : t.children p = before ++ c :: (bs ++ e :: after) := by rw [← hp]; simp
  obtain ⟨-, hexp, x, hx, hfx⟩ := fieldIn_marker h hc
  obtain ⟨-, -, y, hy, hfy⟩ := fieldIn_marker h he
  have hkc := (h.twig_node.mp hc).1
  have hke := (h.twig_node.mp he).1
  have hpc : t.parent c = some p := h.parent_of_mem (by rw [hp]; simp)
  have hpe : t.parent e = some p := h.parent_of_mem (by rw [hp]; simp)
  have hne : c ≠ e := fun heq => (h.children_cut hp).2 (by rw [heq]; simp)
  have hsib : t.parent c = t.parent e := hpc.trans hpe.symm
  have hrow : rowEnds? t (t.fieldIn c) (t.fieldIn e) = none := by
    have hname : (Word.paragraph == Word.tableRow) = false := by decide
    rw [rowEnds?, hfx, hfy, Field.ancestor?_simpleAt h hx hkc, Field.ancestor?_simpleAt h hy hke, hname,
      h.findAncestor?_of_siblings hsib]
    cases t.findAncestor? e Word.tableRow with
    | none => rfl
    | some q =>
      show (if areSiblings t q q = true then some (q, q) else none) = none
      rw [if_neg fun hs => (areSiblings_iff.mp hs).1 rfl]
  have hpar : paragraphEnds? t (t.fieldIn c) (t.fieldIn e) = some (.paragraph, c, e) := by
    rw [paragraphEnds?, hfx, hfy, Field.ancestor?_simpleAt h hx hkc, Field.ancestor?_simpleAt h hy hke]
    show (if areSiblings t c e = true then some (BlockKind.paragraph, c, e) else _) = _
    rw [if_pos (areSiblings_iff.mpr ⟨hne, hsib⟩)]
  refine resolve?_eq_some.mpr ⟨?_, Or.inl ?_, rfl, rfl⟩
  · rw [ends?, hexp, m.worded, if_neg Bool.false_ne_true, hrow]
    exact hpar
  · have hlater : t.laterElements c = (bs ++ e :: after).filter t.isElement :=
      h.laterElements_eq hp
    refine (between?_eq_some h).mpr (Or.inr ⟨after.filter t.isElement, ?_⟩)
    rw [List.filter_append, List.filter_eq_self.mpr hbs, List.filter_cons_of_pos (isElement_of_kind hke)] at hlater
    exact hlater

open Outline

/-- Fields that make these statements at the top level, and that may stand in a block whose
    end and whose other marks `bounds` tells. -/
structure Scanned (t : Tree) (bounds : String → Bool) (fs : List Field) (ss : List Statement) : Prop where
  outlined : Outlined Registry.stock t fs ss
  filled : ∀ stop isMarker, (∀ e, bounds e = (e == stop || isMarker e)) → Filled Registry.stock t stop isMarker fs []

theorem Scanned.nil (t : Tree) (bounds : String → Bool) : Scanned t bounds [] [] := ⟨.nil, fun _ _ _ => .nil⟩

theorem Scanned.append {t : Tree} {bounds : String → Bool} {fs fs' : List Field} {ss ss' : List Statement}
    (h : Scanned t bounds fs ss) (h' : Scanned t bounds fs' ss') : Scanned t bounds (fs ++ fs') (ss ++ ss') :=
  ⟨h.outlined.append h'.outlined, fun stop isMarker hb => (h.filled stop isMarker hb).append (h'.filled stop isMarker hb)⟩

theorem ne_of_bounds {bounds : String → Bool} {stop e : String} {isMarker : String → Bool}
    (hb : ∀ e, bounds e = (e == stop || isMarker e)) (he : bounds e = false) : e ≠ stop ∧ isMarker e = false := by
  rw [hb, Bool.or_eq_false_iff, beq_eq_false_iff_ne] at he
  exact he

theorem Scanned.block {t : Tree} {bounds : String → Bool} {f e : Field} {stop : String} {isMarker : String → Bool}
    {inner marks fs : List Field} {st : Statement} {ss : List Statement} (hf : bounds f.expression = false)
    (hd : closing? Registry.stock f = some (stop, isMarker)) (hfill : Filled Registry.stock t stop isMarker inner marks)
    (he : e.expression = stop) (hclose : Closes t f (Registry.stock.directive f.expression) marks e st)
    (h : Scanned t bounds fs ss) : Scanned t bounds (f :: inner ++ e :: fs) (st :: ss) where
  outlined := .block hd hfill he hclose h.outlined
  filled stop' isMarker' hb := by
    obtain ⟨hs, hm⟩ := ne_of_bounds hb hf
    exact .block hs hm hd hfill he hclose (h.filled stop' isMarker' hb)

theorem Scanned.insertion {t : Tree} {bounds : String → Bool} {f : Field} {o : Operand} {text : String} {fs : List Field}
    {ss : List Statement} (hf : bounds f.expression = false) (hd : Registry.stock.directive f.expression = .insertion text)
    (ho : Operand.parse text = .ok o) (h : Scanned t bounds fs ss) :
    Scanned t bounds (f :: fs) (.insertion f o :: ss) where
  outlined := .insertion (Or.inl ⟨text, hd, ho⟩) h.outlined
  filled stop isMarker hb := by
    obtain ⟨hs, hm⟩ := ne_of_bounds hb hf
    exact .lone hs hm (by rw [closing?, hd]; rfl) (h.filled stop isMarker hb)

/-- The children of an ordinary paragraph are read as its pieces. -/
theorem Piece.exists_plan {t : Tree} (h : t.WellFormed) {bounds : String → Bool} (ps : List Piece)
    (hps : ∀ i, .insertion i ∈ ps → bounds i.expression = false) {xs : List NodeId} (hxs : xs.map t.twig = ps.map Piece.twig) :
    ∃ ss, Piece.Planned t ps xs ss ∧ Scanned t bounds (Field.among t (xs.flatMap t.subtree)) ss := by
  induction ps generalizing xs with
  | nil =>
    obtain rfl := List.map_eq_nil_iff.mp hxs
    exact ⟨[], .nil, .nil t bounds⟩
  | cons piece ps ih =>
    obtain ⟨x, xs, rfl, hx, hrest⟩ := List.map_eq_cons_iff.mp hxs
    obtain ⟨ss, hplan, hscan⟩ := ih (fun i hi => hps i (List.mem_cons_of_mem _ hi)) hrest
    rw [List.flatMap_cons, Field.among_append]
    cases piece with
    | plain w hw =>
      have hsub : ∀ d ∈ t.subtree x, (t.kind d).opensField = false := fun d hd =>
        (h.twig_has Kind.opensField x).mp (by rw [hx]; exact hw) d (h.mem_subtree.mp hd)
      rw [Field.among_of_plain hsub, List.nil_append]
      exact ⟨ss, .plain hx hplan, hscan⟩
    | insertion i =>
      have hplain := i.plain
      rw [Twig.hasIn_append, Twig.hasIn_append, Bool.or_eq_false_iff, Bool.or_eq_false_iff] at hplain
      obtain ⟨⟨hb, hr⟩, ha⟩ := hplain
      have hin : Twig.hasIn Kind.opensField [.node (.element Word.run i.run)
          (i.before ++ .node (.element Word.text i.text) i.result :: i.after)] = false := by
        have hrun : (Kind.element Word.run i.run).opensField = false := rfl
        have htext : (Kind.element Word.text i.text).opensField = false := rfl
        simp only [Twig.hasIn, Twig.has, Twig.hasIn_append, hrun, htext, hb, hr, ha, Bool.or_false]
      obtain ⟨text, hd, ho⟩ := i.means
      rw [h.among_subtree hx i.reads hin, List.singleton_append]
      exact ⟨_, .insertion hx hplan, hscan.insertion (hps i List.mem_cons_self) hd ho⟩

mutual

theorem Template.isNamed_paragraph : (T : Template) → ∀ w ∈ T.paragraphs, w.kind.isNamed Word.paragraph = true
  | .nil, w, hw => nomatch hw
  | .paragraph p rest, w, hw => by
    rcases List.mem_cons.mp hw with rfl | hw
    · exact beq_self_eq_true _
    · exact rest.isNamed_paragraph w hw
  | .loop start list iterator body stop rest, w, hw => by
    simp only [Template.paragraphs, List.mem_append, List.mem_cons] at hw
    rcases hw with (rfl | hw) | rfl | hw
    · exact beq_self_eq_true _
    · exact body.isNamed_paragraph w hw
    · exact beq_self_eq_true _
    · exact rest.isNamed_paragraph w hw
  | .conditional start guard operand body more rest, w, hw => by
    simp only [Template.paragraphs, List.mem_append, List.mem_cons] at hw
    rcases hw with ((rfl | hw) | hw) | hw
    · exact beq_self_eq_true _
    · exact body.isNamed_paragraph w hw
    · exact more.isNamed_paragraph w hw
    · exact rest.isNamed_paragraph w hw
  | .comment start body stop rest, w, hw => by
    simp only [Template.paragraphs, List.mem_append, List.mem_cons] at hw
    rcases hw with (rfl | hw) | rfl | hw
    · exact beq_self_eq_true _
    · exact body.isNamed_paragraph w hw
    · exact beq_self_eq_true _
    · exact rest.isNamed_paragraph w hw

theorem Branches.isNamed_paragraph : (B : Branches) → ∀ w ∈ B.paragraphs, w.kind.isNamed Word.paragraph = true
  | .stop marker, w, hw => by
    rw [List.mem_singleton.mp hw]
    exact beq_self_eq_true _
  | .guarded marker guard operand body more, w, hw => by
    simp only [Branches.paragraphs, List.mem_append, List.mem_cons] at hw
    rcases hw with (rfl | hw) | hw
    · exact beq_self_eq_true _
    · exact body.isNamed_paragraph w hw
    · exact more.isNamed_paragraph w hw
  | .otherwise marker body stop, w, hw => by
    simp only [Branches.paragraphs, List.mem_append, List.mem_cons, List.not_mem_nil, or_false] at hw
    rcases hw with (rfl | hw) | rfl
    · exact beq_self_eq_true _
    · exact body.isNamed_paragraph w hw
    · exact beq_self_eq_true _

end

/-- The paragraphs of a template are elements. -/
theorem Template.isElement {t : Tree} (h : t.WellFormed) {T : Template} {cs : List NodeId}
    (hcs : cs.map t.twig = T.paragraphs) : ∀ c ∈ cs, t.isElement c = true := fun c hc => by
  have hmem : t.twig c ∈ T.paragraphs := hcs ▸ List.mem_map_of_mem hc
  have hnamed := T.isNamed_paragraph _ hmem
  rw [h.twig_eq, Twig.kind, ← isNamed_eq] at hnamed
  exact isElement_of_isNamed hnamed

/-- The marks behind the first branch of a conditional, and what they make. -/
structure Branches.Parted (t : Tree) (name : String) (B : Branches) (m : NodeId) (ms : List NodeId) (inner marks : List Field)
    (e : Field) (conditions : List Condition) (other : Option Block) : Prop where
  planned : B.Planned t (m :: ms) conditions other
  fields : (m :: ms).flatMap t.fields = inner ++ [e]
  closes : e.expression = Directive.conditionalEnd name
  filled : Filled Registry.stock t (Directive.conditionalEnd name) (Directive.isBranchMarker name) inner marks
  branched : ∃ fs, marks ++ [e] = t.fieldIn m :: fs ∧ Branched t name (t.fieldIn m) fs conditions other
  marker : ∃ mark : Marker, t.twig m = mark.twig
  deep : B.depth ≤ inner.length

/-- What a template reads as. -/
structure Template.Read (t : Tree) (bounds : String → Bool) (T : Template) (cs : List NodeId) (ss : List Statement) : Prop where
  planned : T.Planned t cs ss
  scanned : Scanned t bounds (cs.flatMap t.fields) ss
  deep : T.depth ≤ (cs.flatMap t.fields).length

/-- The first branch and the others make one statement. -/
theorem Branches.Parted.exists_closes {t : Tree} {guard : Guard} {B : Branches} {m : NodeId} {ms : List NodeId}
    {inner marks : List Field} {e f : Field} {conditions : List Condition} {other : Option Block} {o : Operand} {b : Block}
    (hB : B.Parted t guard.name m ms inner marks e conditions other) (ho : Operand.parse guard.name = .ok o)
    (hr : Block.resolve? t f (t.fieldIn m) = some b) : ∃ st, Closes t f (.conditional guard) marks e st ∧
      st.Chooses ⟨o, guard.predicate, b⟩ conditions other := by
  obtain ⟨fs, hsplit, hbranched⟩ := hB.branched
  cases marks with
  | nil =>
    obtain ⟨rfl, rfl⟩ := List.cons.inj hsplit
    cases hbranched
    exact ⟨_, .condition ho hr, Or.inr ⟨rfl, rfl, rfl⟩⟩
  | cons g marks =>
    obtain ⟨rfl, rfl⟩ := List.cons.inj hsplit
    exact ⟨_, .choice ho hr hbranched, Or.inl rfl⟩

/-- Two marker paragraphs and what they enclose, among siblings. -/
structure Block.Laid (t : Tree) (p : NodeId) (start stop : Marker) (body : Template) (c : NodeId) (bs : List NodeId)
    (e : NodeId) : Prop where
  start : t.twig c = start.twig
  stop : t.twig e = stop.twig
  body : bs.map t.twig = body.paragraphs
  inside : bs <:+: t.children p
  resolves : Block.resolve? t (t.fieldIn c) (t.fieldIn e) = some (Block.ofParagraphs t c bs e)

theorem Block.laid {t : Tree} (h : t.WellFormed) {p c e : NodeId} {bs : List NodeId} {start stop : Marker} {body : Template}
    (hp : c :: bs ++ [e] <:+: t.children p) (hc : t.twig c = start.twig) (he : t.twig e = stop.twig)
    (hbs : bs.map t.twig = body.paragraphs) : Block.Laid t p start stop body c bs e where
  start := hc
  stop := he
  body := hbs
  inside := by
    refine List.IsInfix.trans ⟨[c], [e], ?_⟩ hp
    simp
  resolves := Block.resolve?_ofParagraphs h hp hc he (Template.isElement h hbs)

/-- A block with two markers stands in front of the rest of a template. -/
theorem Block.exists_laid {t : Tree} (h : t.WellFormed) {p : NodeId} {cs : List NodeId} {start stop : Marker}
    {body rest : Template} (hp : cs <:+: t.children p)
    (hcs : cs.map t.twig = start.twig :: body.paragraphs ++ stop.twig :: rest.paragraphs) : ∃ c bs e cs',
      cs = c :: bs ++ e :: cs' ∧ Block.Laid t p start stop body c bs e ∧ cs' <:+: t.children p ∧
        cs'.map t.twig = rest.paragraphs ∧
        cs.flatMap t.fields = t.fieldIn c :: bs.flatMap t.fields ++ t.fieldIn e :: cs'.flatMap t.fields := by
  obtain ⟨front, back, rfl, hfront, hback⟩ := List.map_eq_append_iff.mp hcs
  obtain ⟨c, bs, rfl, hc, hbs⟩ := List.map_eq_cons_iff.mp hfront
  obtain ⟨e, cs, rfl, he, hcs⟩ := List.map_eq_cons_iff.mp hback
  have hover : c :: bs ++ [e] <:+: t.children p := by
    refine List.IsInfix.trans (List.IsPrefix.isInfix ⟨cs, ?_⟩) hp
    simp
  have hrest : cs <:+: t.children p := by
    refine List.IsInfix.trans (List.IsSuffix.isInfix ⟨c :: bs ++ [e], ?_⟩) hp
    simp
  refine ⟨c, bs, e, cs, rfl, Block.laid h hover hc he hbs, hrest, hcs, ?_⟩
  rw [List.flatMap_append, List.flatMap_cons, List.flatMap_cons, (fieldIn_marker h hc).1, (fieldIn_marker h he).1]
  rfl

theorem Directive.elseMarker_ne_conditionalEnd (name : String) : elseMarker name ≠ conditionalEnd name := by
  intro he
  have hl := congrArg String.toList he
  simp only [elseMarker, conditionalEnd, String.toList_append] at hl
  exact absurd (List.append_cancel_left hl) (by decide)

mutual

/-- The paragraphs of a template are read as planned, wherever the template stands. -/
theorem Template.exists_plan {t : Tree} (h : t.WellFormed) {p : NodeId} : (T : Template) → ∀ {bounds : String → Bool}
    {cs : List NodeId}, T.Nested bounds → cs <:+: t.children p → cs.map t.twig = T.paragraphs → ∃ ss, T.Read t bounds cs ss
  | .nil, bounds, cs, hn, hp, hcs => by
    obtain rfl := List.map_eq_nil_iff.mp hcs
    exact ⟨[], .nil, .nil t bounds, Nat.le_refl _⟩
  | .paragraph q rest, bounds, cs, hn, hp, hcs => by
    rw [Template.paragraphs, List.map_eq_cons_iff] at hcs
    obtain ⟨c, cs, rfl, hc, hcs⟩ := hcs
    rw [Template.Nested] at hn
    obtain ⟨ss', hplan', hscan', hdeep'⟩ := rest.exists_plan h hn.2 ((List.suffix_cons c cs).isInfix.trans hp) hcs
    obtain ⟨hk, hch⟩ := h.twig_node.mp hc
    obtain ⟨ss, hplan, hscan⟩ := Piece.exists_plan h q.pieces hn.1 hch
    rw [← h.descendants_eq, ← fields_eq_among] at hscan
    refine ⟨ss ++ ss', .paragraph hk hplan hplan', ?_, ?_⟩
    · rw [List.flatMap_cons]
      exact hscan.append hscan'
    · rw [List.flatMap_cons, List.length_append, Template.depth]
      omega
  | .loop start list iterator body stop rest, bounds, cs, hn, hp, hcs => by
    rw [Template.Nested] at hn
    obtain ⟨hbound, ⟨text, hd, ho⟩, hbody, hrest⟩ := hn
    obtain ⟨c, bs, e, cs, rfl, hlaid, hp, hcs, hfields⟩ := Block.exists_laid h hp hcs
    obtain ⟨ss, hplan, hscan, hdeep⟩ := rest.exists_plan h hrest hp hcs
    obtain ⟨inner, -, hscan', hdeep'⟩ := body.exists_plan h hbody hlaid.inside hlaid.body
    obtain ⟨-, hec, -⟩ := Block.fieldIn_marker h hlaid.start
    obtain ⟨-, hee, -⟩ := Block.fieldIn_marker h hlaid.stop
    have hloop : Registry.stock.directive (t.fieldIn c).expression = .loop text iterator stop.expression := by rw [hec, hd]
    refine ⟨_, .loop hlaid.body hplan, ?_, ?_⟩
    · rw [hfields]
      refine hscan.block (by rw [hec]; exact hbound) (by rw [closing?, hloop]; rfl)
        (hscan'.filled stop.expression (fun _ => false) fun e => (Bool.or_false _).symm) hee ?_
      rw [hloop]
      exact .loop ho hlaid.resolves
    · rw [hfields, Template.depth, List.length_append, List.length_cons, List.length_cons]
      omega
  | .conditional start guard operand body more rest, bounds, cs, hn, hp, hcs => by
    rw [Template.Nested] at hn
    obtain ⟨hbound, hd, ho, hbody, hmore, hrest⟩ := hn
    obtain ⟨front, cs, rfl, hfront, hback⟩ := List.map_eq_append_iff.mp hcs
    obtain ⟨first, ms, rfl, hfirst, hms⟩ := List.map_eq_append_iff.mp hfront
    obtain ⟨c, bs, rfl, hc, hbs⟩ := List.map_eq_cons_iff.mp hfirst
    have hpfront := (List.prefix_append (c :: bs ++ ms) cs).isInfix.trans hp
    have hpms := (List.suffix_append (c :: bs) ms).isInfix.trans hpfront
    have hpcs := (List.suffix_append (c :: bs ++ ms) cs).isInfix.trans hp
    obtain ⟨m, ms, inner, marks, e, conditions, other, rfl, hB⟩ := more.exists_plan h hmore hpms hms
    obtain ⟨mark, hm⟩ := hB.marker
    have hover : c :: bs ++ [m] <:+: t.children p := by
      refine List.IsInfix.trans (List.IsPrefix.isInfix ⟨ms, ?_⟩) hpfront
      simp
    have hlaid := Block.laid h hover hc hm hbs
    obtain ⟨ss, hplan, hscan, hdeep⟩ := rest.exists_plan h hrest hpcs hback
    obtain ⟨inner', -, hscan', hdeep'⟩ := body.exists_plan h hbody hlaid.inside hbs
    obtain ⟨hfc, hec, -⟩ := Block.fieldIn_marker h hc
    obtain ⟨st, hclose, hst⟩ := hB.exists_closes ho hlaid.resolves
    have hfields : (c :: bs ++ m :: ms ++ cs).flatMap t.fields =
        t.fieldIn c :: (bs.flatMap t.fields ++ inner) ++ e :: cs.flatMap t.fields := by
      rw [List.flatMap_append, List.flatMap_append, List.flatMap_cons, hfc, hB.fields]
      simp
    have hcond : Registry.stock.directive (t.fieldIn c).expression = .conditional guard := by rw [hec, hd]
    have hfill := (hscan'.filled _ (Directive.isBranchMarker guard.name) fun e => rfl).append hB.filled
    have hdeep'' := hB.deep
    refine ⟨_, .conditional hbs hB.planned hst hplan, ?_, ?_⟩
    · rw [hfields]
      refine hscan.block (by rw [hec]; exact hbound) (by rw [closing?, hcond]; rfl) hfill hB.closes ?_
      rw [hcond]
      exact hclose
    · rw [hfields, Template.depth, List.length_append, List.length_cons, List.length_cons, List.length_append]
      omega
  | .comment start body stop rest, bounds, cs, hn, hp, hcs => by
    rw [Template.Nested] at hn
    obtain ⟨hbound, hd, hstop, hbody, hrest⟩ := hn
    obtain ⟨c, bs, e, cs, rfl, hlaid, hp, hcs, hfields⟩ := Block.exists_laid h hp hcs
    obtain ⟨ss, hplan, hscan, hdeep⟩ := rest.exists_plan h hrest hp hcs
    obtain ⟨inner, -, hscan', hdeep'⟩ := body.exists_plan h hbody hlaid.inside hlaid.body
    obtain ⟨-, hec, -⟩ := Block.fieldIn_marker h hlaid.start
    obtain ⟨-, hee, -⟩ := Block.fieldIn_marker h hlaid.stop
    have hcomment : Registry.stock.directive (t.fieldIn c).expression = .comment := by rw [hec, hd]
    refine ⟨_, .comment hplan, ?_, ?_⟩
    · rw [hfields]
      refine hscan.block (by rw [hec]; exact hbound) (by rw [closing?, hcomment, hstop]; rfl)
        (hscan'.filled stop.expression (fun _ => false) fun e => (Bool.or_false _).symm) hee ?_
      rw [hcomment]
      exact .comment hlaid.resolves
    · rw [hfields, Template.depth, List.length_append, List.length_cons, List.length_cons]
      omega

theorem Branches.exists_plan {t : Tree} (h : t.WellFormed) {p : NodeId} : (B : Branches) → ∀ {name : String}
    {ms : List NodeId}, B.Nested name → ms <:+: t.children p → ms.map t.twig = B.paragraphs →
    ∃ m ms' inner marks e conditions other, ms = m :: ms' ∧ B.Parted t name m ms' inner marks e conditions other
  | .stop marker, name, ms, hn, hp, hms => by
    obtain ⟨m, rfl, hm⟩ := List.map_eq_singleton_iff.mp hms
    obtain ⟨hfm, hem, -⟩ := Block.fieldIn_marker h hm
    refine ⟨m, [], [], [], t.fieldIn m, [], none, rfl, .stop hm, ?_, hem.trans hn, .nil, ⟨[], rfl, .done⟩, ⟨marker, hm⟩,
      Nat.le_refl _⟩
    rw [List.flatMap_singleton, hfm]
    rfl
  | .guarded marker guard operand body more, name, ms, hn, hp, hms => by
    rw [Branches.Nested] at hn
    obtain ⟨hend, helse, hguard, ho, hbody, hmore⟩ := hn
    obtain ⟨front, ms, rfl, hfront, hback⟩ := List.map_eq_append_iff.mp hms
    obtain ⟨m, bs, rfl, hm, hbs⟩ := List.map_eq_cons_iff.mp hfront
    obtain ⟨m', ms, inner, marks, e, conditions, other, rfl, hB⟩ :=
      more.exists_plan h hmore ((List.suffix_append (m :: bs) ms).isInfix.trans hp) hback
    obtain ⟨mark, hm'⟩ := hB.marker
    have hover : m :: bs ++ [m'] <:+: t.children p := by
      refine List.IsInfix.trans (List.IsPrefix.isInfix ⟨ms, ?_⟩) hp
      simp
    have hlaid := Block.laid h hover hm hm' hbs
    obtain ⟨inner', -, hscan', hdeep'⟩ := body.exists_plan h hbody hlaid.inside hbs
    obtain ⟨hfm, hem, -⟩ := Block.fieldIn_marker h hm
    obtain ⟨fs, hsplit, hbranched⟩ := hB.branched
    have hmark : Directive.isBranchMarker name (t.fieldIn m).expression = true := by
      rw [Directive.isBranchMarker, hem, hguard, Option.isSome_some, Bool.or_true]
    have hfill := (hscan'.filled _ (Directive.isBranchMarker name) fun e => rfl).append hB.filled
    have hdeep := hB.deep
    refine ⟨m, bs ++ m' :: ms, t.fieldIn m :: (bs.flatMap t.fields ++ inner), t.fieldIn m :: marks, e, _, other, rfl,
      .guarded hm hbs hB.planned, ?_, hB.closes, ?_, ⟨t.fieldIn m' :: fs, by rw [List.cons_append, hsplit], ?_⟩,
      ⟨marker, hm⟩, ?_⟩
    · rw [List.flatMap_cons, List.flatMap_append, hfm, hB.fields]
      simp
    · exact .mark (by rw [hem]; exact hend) hmark hfill
    · exact .more (by rw [hem]; exact helse) (by rw [hem, hguard]; rfl) ho hlaid.resolves hbranched
    · rw [Branches.depth, List.length_cons, List.length_append]
      omega
  | .otherwise marker body stop, name, ms, hn, hp, hms => by
    rw [Branches.Nested] at hn
    obtain ⟨helse, hstop, hbody⟩ := hn
    obtain ⟨front, back, rfl, hfront, hback⟩ := List.map_eq_append_iff.mp hms
    obtain ⟨m, bs, rfl, hm, hbs⟩ := List.map_eq_cons_iff.mp hfront
    obtain ⟨e, rfl, he⟩ := List.map_eq_singleton_iff.mp hback
    have hlaid := Block.laid h hp hm he hbs
    obtain ⟨inner, -, hscan, hdeep⟩ := body.exists_plan h hbody hlaid.inside hbs
    obtain ⟨hfm, hem, -⟩ := Block.fieldIn_marker h hm
    obtain ⟨hfe, hee, -⟩ := Block.fieldIn_marker h he
    have hname : (t.fieldIn m).expression = Directive.elseMarker name := hem.trans helse
    have hmark : Directive.isBranchMarker name (t.fieldIn m).expression = true := by
      rw [Directive.isBranchMarker, hname, beq_self_eq_true, Bool.true_or]
    refine ⟨m, bs ++ [e], t.fieldIn m :: bs.flatMap t.fields, [t.fieldIn m], t.fieldIn e, [], _, rfl, .otherwise hm hbs he,
      ?_, hee.trans hstop, ?_, ⟨[t.fieldIn e], rfl, .otherwise hname hlaid.resolves⟩, ⟨marker, hm⟩, ?_⟩
    · rw [List.flatMap_cons, List.flatMap_append, List.flatMap_singleton, hfm, hfe]
      simp
    · refine .mark ?_ hmark (hscan.filled _ (Directive.isBranchMarker name) fun e => rfl)
      rw [hname]
      exact Directive.elseMarker_ne_conditionalEnd name
    · rw [Branches.depth, List.length_cons]
      omega

end

end MailMerge
