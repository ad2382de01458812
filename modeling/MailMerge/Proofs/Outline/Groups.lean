/-
  MailMerge.Proofs.Outline.Groups — which fields a statement is made of.

  The fields of a scan fall into groups: a field that starts nothing stands alone, and one
  that starts a block stands with all the fields up to its end. In between are more groups
  and, for a conditional, the markers that part its branches. `Closes` says which statement
  a group makes, `Filled` what may stand between the first and the last field of a group,
  and `Outlined` how the statements of a scan follow its groups.

  Proved: what the fields are grouped to by `takeUntil` and `takeAll` is just what these
  relations say (`takeUntil_eq_ok`, `exists_takeUntil_eq_ok`, `ofFields_iff`). The ledger
  does not matter for it.
-/

import MailMerge.Outline
import MailMerge.Proofs.Block.Resolve

namespace MailMerge

/-- The expression that ends a directive's block, and those that part it. -/
def Directive.closing? : Directive → Option (String × (String → Bool))
  | .loop _ _ stop => some (stop, fun _ => false)
  | .conditional guard => some (conditionalEnd guard.name, isBranchMarker guard.name)
  | .picture name => some (pictureEnd name, fun _ => false)
  | .comment => some (commentEnd, fun _ => false)
  | .insertion _ | .value _ | .nothing => none

/-- Enters a block in the ledger, as one that is replaced or as one only looked at. -/
def Ledger.enter (t : Tree) (nested : Bool) (l : Ledger) (b : Block) : Ledger :=
  if nested then l.refer b else (l.refer b).hold t b

/-- The fields that bound a block. -/
def Block.ends (b : Block) : Field × Field := (b.startField, b.endField)

namespace Statement

/-- The blocks whose bodies may be copied when the statement is carried out. -/
def copied : Statement → List Block
  | loop _ _ block => [block]
  | condition c => [c.block]
  | choice branches otherwise => branches.map (·.block) ++ otherwise.toList
  | insertion _ _ | picture _ _ | comment _ => []

theorem mem_blocks_of_copied {s : Statement} {b : Block} (hb : b ∈ s.copied) : b ∈ s.blocks := by
  cases s with
  | loop => exact hb
  | condition => exact hb
  | choice => exact hb
  | _ => cases hb

end Statement

namespace Outline

/-! ## Results that are there -/

theorem bind_eq_ok {ε α β : Type} {x : Except ε α} {f : α → Except ε β} {b : β} :
    (x >>= f) = .ok b ↔ ∃ a, x = .ok a ∧ f a = .ok b := by
  cases x with
  | error e =>
    show Except.error e = .ok b ↔ _
    simp
  | ok a =>
    show f a = .ok b ↔ _
    simp

theorem operand_eq_ok {f : Field} {text : String} {o : Operand} :
    operand f text = .ok o ↔ Operand.parse text = .ok o := by
  unfold operand
  cases Operand.parse text <;> simp [Except.mapError]

theorem enclose_eq_ok {t : Tree} {nested : Bool} {l l' : Ledger} {start stop : Field} {b : Block} :
    enclose t nested l start stop = .ok (b, l') ↔
      Block.resolve? t start stop = some b ∧ l' = Ledger.enter t nested l b := by
  unfold enclose Block.enclose
  cases Block.resolve? t start stop with
  | none => simp [Except.mapError]
  | some c =>
    simp only [Except.mapError, Except.ok.injEq, Prod.mk.injEq, Option.some.injEq, Ledger.enter]
    constructor
    · rintro ⟨rfl, rfl⟩; exact ⟨rfl, rfl⟩
    · rintro ⟨rfl, rfl⟩; exact ⟨rfl, rfl⟩

/-! ## The statement of a group -/

/-- The branches behind the first one, from `start` over the fields at which they end. -/
inductive Branched (t : Tree) (name : String) : Field → List Field → List Condition → Option Block → Prop
  | done {start : Field} : Branched t name start [] [] none
  | otherwise {start stop : Field} {b : Block} : start.expression = Directive.elseMarker name →
      Block.resolve? t start stop = some b → Branched t name start [stop] [] (some b)
  | more {start stop : Field} {marks : List Field} {guard : Guard} {o : Operand} {b : Block} {cs : List Condition}
      {other : Option Block} : start.expression ≠ Directive.elseMarker name →
      guard = (Directive.elsif? start.expression).getD ⟨start.expression, none⟩ → Operand.parse guard.name = .ok o →
      Block.resolve? t start stop = some b → Branched t name stop marks cs other →
      Branched t name start (stop :: marks) (⟨o, guard.predicate, b⟩ :: cs) other

/-- The statement that a field makes with the markers of its group and the field that ends it. -/
inductive Closes (t : Tree) (f : Field) : Directive → List Field → Field → Statement → Prop
  | loop {list iterator stop : String} {e : Field} {o : Operand} {b : Block} : Operand.parse list = .ok o →
      Block.resolve? t f e = some b → Closes t f (.loop list iterator stop) [] e (.loop o iterator b)
  | condition {guard : Guard} {e : Field} {o : Operand} {b : Block} : Operand.parse guard.name = .ok o →
      Block.resolve? t f e = some b →
      Closes t f (.conditional guard) [] e (.condition ⟨o, guard.predicate, b⟩)
  | choice {guard : Guard} {e m : Field} {marks : List Field} {o : Operand} {b : Block} {cs : List Condition}
      {other : Option Block} : Operand.parse guard.name = .ok o → Block.resolve? t f m = some b →
      Branched t guard.name m (marks ++ [e]) cs other →
      Closes t f (.conditional guard) (m :: marks) e (.choice (⟨o, guard.predicate, b⟩ :: cs) other)
  | picture {name : String} {e : Field} {o : Operand} {b : Block} : Operand.parse name = .ok o →
      Block.resolve? t f e = some b → Closes t f (.picture name) [] e (.picture o b)
  | comment {e : Field} {b : Block} : Block.resolve? t f e = some b → Closes t f .comment [] e (.comment b)

theorem branch_eq_ok {t : Tree} {nested : Bool} {l l' : Ledger} {guard : Guard} {start stop : Field} {c : Condition} :
    branch t nested l guard start stop = .ok (c, l') ↔
      ∃ o b, Operand.parse guard.name = .ok o ∧ Block.resolve? t start stop = some b ∧
        c = ⟨o, guard.predicate, b⟩ ∧ l' = Ledger.enter t nested l b := by
  unfold branch
  simp only [bind_eq_ok, operand_eq_ok, Prod.exists, enclose_eq_ok, Except.ok.injEq, Prod.mk.injEq]
  constructor
  · rintro ⟨o, ho, b, l₁, ⟨hb, rfl⟩, rfl, rfl⟩; exact ⟨o, b, ho, hb, rfl, rfl⟩
  · rintro ⟨o, b, ho, hb, rfl, rfl⟩; exact ⟨o, ho, b, _, ⟨hb, rfl⟩, rfl, rfl⟩

/-- The blocks of branches, in document order. -/
def blocksOf (cs : List Condition) (other : Option Block) : List Block := cs.map (·.block) ++ other.toList

theorem branches_of_some {t : Tree} {nested : Bool} {opening : Field} {name : String} {l l' : Ledger} {b : Block}
    {start : Field} {marks : List Field} {cs : List Condition} {other : Option Block} :
    branches t nested opening name l (some b) start marks = .ok (cs, other, l') ↔
      marks = [] ∧ cs = [] ∧ other = some b ∧ l' = l := by
  cases marks with
  | nil => simp [branches, eq_comm]
  | cons m marks => simp [branches]

theorem branches_eq_ok {t : Tree} {nested : Bool} {opening : Field} {name : String} {l l' : Ledger} {start : Field}
    {marks : List Field} {cs : List Condition} {other : Option Block} :
    branches t nested opening name l none start marks = .ok (cs, other, l') ↔
      Branched t name start marks cs other ∧ l' = (blocksOf cs other).foldl (Ledger.enter t nested) l := by
  induction marks generalizing start l l' cs other with
  | nil =>
    simp only [branches, Except.ok.injEq, Prod.mk.injEq]
    constructor
    · rintro ⟨rfl, rfl, rfl⟩; exact ⟨.done, rfl⟩
    · rintro ⟨h, rfl⟩; cases h; exact ⟨rfl, rfl, rfl⟩
  | cons stop marks ih =>
    rw [branches]
    simp only [Option.isSome_none, Bool.false_eq_true, if_false]
    by_cases he : start.expression = Directive.elseMarker name
    · rw [if_pos he]
      simp only [bind_eq_ok, Prod.exists, enclose_eq_ok, branches_of_some]
      constructor
      · rintro ⟨b, l₁, ⟨hb, rfl⟩, rfl, rfl, rfl, rfl⟩
        exact ⟨.otherwise he hb, rfl⟩
      · rintro ⟨h, rfl⟩
        cases h with
        | otherwise _ hb => exact ⟨_, _, ⟨hb, rfl⟩, rfl, rfl, rfl, rfl⟩
        | more hne => exact absurd he hne
    · rw [if_neg he]
      simp only [bind_eq_ok, Prod.exists, branch_eq_ok, ih, Except.ok.injEq, Prod.mk.injEq]
      constructor
      · rintro ⟨c, l₁, ⟨o, b, ho, hb, rfl, rfl⟩, cs, other, l₂, ⟨hr, rfl⟩, rfl, rfl, rfl⟩
        exact ⟨.more he rfl ho hb hr, rfl⟩
      · rintro ⟨h, rfl⟩
        cases h with
        | otherwise he' _ => exact absurd he' he
        | more _ hg ho hb hr =>
          subst hg
          exact ⟨_, _, ⟨_, _, ho, hb, rfl, rfl⟩, _, _, _, ⟨hr, rfl⟩, rfl, rfl, rfl⟩

theorem conditional_eq_ok {t : Tree} {nested : Bool} {l l' : Ledger} {f stop : Field} {guard : Guard}
    {markers : List Field} {s : Statement} :
    conditional t nested l f guard markers stop = .ok (s, l') ↔
      Closes t f (.conditional guard) markers stop s ∧ l' = s.blocks.foldl (Ledger.enter t nested) l := by
  unfold conditional
  simp only [bind_eq_ok, Prod.exists, branch_eq_ok]
  cases markers with
  | nil =>
    simp only [Except.ok.injEq, Prod.mk.injEq, List.headD_nil]
    constructor
    · rintro ⟨c, l₁, ⟨o, b, ho, hb, rfl, rfl⟩, rfl, rfl⟩; exact ⟨.condition ho hb, rfl⟩
    · rintro ⟨h, rfl⟩
      cases h with
      | condition ho hb => exact ⟨_, _, ⟨_, _, ho, hb, rfl, rfl⟩, rfl, rfl⟩
  | cons m marks =>
    simp only [bind_eq_ok, Prod.exists, branches_eq_ok, Except.ok.injEq, Prod.mk.injEq, List.headD_cons]
    constructor
    · rintro ⟨c, l₁, ⟨o, b, ho, hb, rfl, rfl⟩, cs, other, l₂, ⟨hr, rfl⟩, rfl, rfl⟩
      exact ⟨.choice ho hb hr, rfl⟩
    · rintro ⟨h, rfl⟩
      cases h with
      | choice ho hb hr => exact ⟨_, _, ⟨_, _, ho, hb, rfl, rfl⟩, _, _, _, ⟨hr, rfl⟩, rfl, rfl⟩

theorem Branched.resolves {t : Tree} {name : String} {start : Field} {marks : List Field} {cs : List Condition}
    {other : Option Block} (h : Branched t name start marks cs other) {b : Block} (hb : b ∈ blocksOf cs other) :
    Block.resolve? t b.startField b.endField = some b := by
  induction h with
  | done => cases hb
  | otherwise _ hr =>
    obtain rfl := List.mem_singleton.mp hb
    exact Block.resolve?_self hr
  | more _ _ _ hr _ ih =>
    rcases List.mem_cons.mp hb with rfl | hb
    · exact Block.resolve?_self hr
    · exact ih hb

/-- The blocks of a statement are those that their own boundary fields enclose. -/
theorem Closes.resolves {t : Tree} {f e : Field} {d : Directive} {marks : List Field} {s : Statement}
    (h : Closes t f d marks e s) {b : Block} (hb : b ∈ s.blocks) : Block.resolve? t b.startField b.endField = some b := by
  cases h with
  | loop _ hr => obtain rfl := List.mem_singleton.mp hb; exact Block.resolve?_self hr
  | condition _ hr => obtain rfl := List.mem_singleton.mp hb; exact Block.resolve?_self hr
  | choice _ hr hbr =>
    rcases List.mem_cons.mp hb with rfl | hb
    · exact Block.resolve?_self hr
    · exact hbr.resolves hb
  | picture _ hr => obtain rfl := List.mem_singleton.mp hb; exact Block.resolve?_self hr
  | comment hr => obtain rfl := List.mem_singleton.mp hb; exact Block.resolve?_self hr

theorem Branched.ends {t : Tree} {name : String} {start : Field} {marks : List Field} {cs : List Condition}
    {other : Option Block} (h : Branched t name start marks cs other) :
    (blocksOf cs other).map Block.ends = (start :: marks).zip marks := by
  induction h with
  | done => rfl
  | otherwise _ hr =>
    obtain ⟨rfl, rfl⟩ := Block.ends_of_resolve? hr
    rfl
  | more _ _ _ hr _ ih =>
    obtain ⟨rfl, rfl⟩ := Block.ends_of_resolve? hr
    rw [List.zip_cons_cons, ← ih]
    rfl

/-- The blocks of a statement reach from each boundary field of its group to the next. -/
theorem Closes.ends {t : Tree} {f e : Field} {d : Directive} {marks : List Field} {s : Statement}
    (h : Closes t f d marks e s) : s.blocks.map Block.ends = (f :: marks ++ [e]).zip (marks ++ [e]) := by
  cases h with
  | loop _ hr => obtain ⟨rfl, rfl⟩ := Block.ends_of_resolve? hr; rfl
  | condition _ hr => obtain ⟨rfl, rfl⟩ := Block.ends_of_resolve? hr; rfl
  | choice _ hr hbr =>
    obtain ⟨rfl, rfl⟩ := Block.ends_of_resolve? hr
    rw [List.cons_append, List.cons_append, List.zip_cons_cons]
    exact congrArg (_ :: ·) hbr.ends
  | picture _ hr => obtain ⟨rfl, rfl⟩ := Block.ends_of_resolve? hr; rfl
  | comment hr => obtain ⟨rfl, rfl⟩ := Block.ends_of_resolve? hr; rfl

theorem Closes.ne_insertion {t : Tree} {f e g : Field} {d : Directive} {marks : List Field} {o : Operand} :
    ¬ Closes t f d marks e (.insertion g o) := fun h => nomatch h

theorem Closes.mem_ends {t : Tree} {f e : Field} {d : Directive} {marks : List Field} {s : Statement}
    (h : Closes t f d marks e s) {b : Block} (hb : b ∈ s.blocks) :
    b.startField ∈ f :: marks ++ [e] ∧ b.endField ∈ f :: marks ++ [e] := by
  have hmem : b.ends ∈ (f :: marks ++ [e]).zip (marks ++ [e]) := h.ends ▸ List.mem_map_of_mem hb
  obtain ⟨hs, he⟩ := List.of_mem_zip hmem
  exact ⟨hs, List.mem_cons_of_mem f he⟩

/-- The fields that bound the blocks of a statement, or the field of an insertion. -/
def topFields : Statement → List Field
  | .insertion f _ => [f]
  | s => (s.blocks.map (·.startField)).take 1 ++ s.blocks.map (·.endField)

theorem mem_topFields_cases {s : Statement} {f : Field} (h : f ∈ topFields s) :
    (∃ o, s = .insertion f o) ∨ ∃ b ∈ s.blocks, f = b.startField ∨ f = b.endField := by
  have hbounds : f ∈ (s.blocks.map (·.startField)).take 1 ++ s.blocks.map (·.endField) →
      ∃ b ∈ s.blocks, f = b.startField ∨ f = b.endField := by
    intro hf
    rcases List.mem_append.mp hf with hf | hf
    · obtain ⟨b, hb, rfl⟩ := List.mem_map.mp (List.mem_of_mem_take hf)
      exact ⟨b, hb, Or.inl rfl⟩
    · obtain ⟨b, hb, rfl⟩ := List.mem_map.mp hf
      exact ⟨b, hb, Or.inr rfl⟩
  cases s with
  | insertion g o => exact Or.inl ⟨o, by rw [List.mem_singleton.mp h]⟩
  | _ => exact Or.inr (hbounds h)

theorem Closes.topFields {t : Tree} {f e : Field} {d : Directive} {marks : List Field} {s : Statement}
    (h : Closes t f d marks e s) : topFields s = f :: marks ++ [e] := by
  have hstart : (s.blocks.map (·.startField)).take 1 = [f] := by
    have hends := congrArg (fun l => (l.map Prod.fst).take 1) h.ends
    rw [List.map_map, List.cons_append] at hends
    obtain ⟨m, ms, hm⟩ := List.exists_cons_of_ne_nil (List.append_ne_nil_of_right_ne_nil marks (List.cons_ne_nil e []))
    rw [hm] at hends
    exact hends
  have hstop : s.blocks.map (·.endField) = marks ++ [e] := by
    have hends := congrArg (List.map Prod.snd) h.ends
    rw [List.map_map, List.map_snd_zip (by simp)] at hends
    exact hends
  cases s with
  | insertion g o => exact h.ne_insertion.elim
  | _ =>
    rw [Outline.topFields, hstart, hstop]
    · rfl
    · exact fun _ _ he => nomatch he

theorem beside_of_mem_zip {α : Type} {a b x : α} {ys : List α} (h : (a, b) ∈ (x :: ys).zip ys) :
    ∃ pre post, x :: ys = pre ++ a :: b :: post := by
  induction ys generalizing x with
  | nil => cases h
  | cons y ys ih =>
    rw [List.zip_cons_cons, List.mem_cons] at h
    rcases h with he | h
    · cases he; exact ⟨[], ys, rfl⟩
    · obtain ⟨pre, post, hs⟩ := ih h
      exact ⟨x :: pre, post, by rw [hs]; rfl⟩

/-! ## Groups -/

/-- What the directive of an expression needs to be closed, if it starts a block. -/
def closing? (r : Registry) (f : Field) : Option (String × (String → Bool)) := (r.directive f.expression).closing?

/-- The fields in front of one whose expression is `stop`, and which of them part it. -/
inductive Filled (r : Registry) (t : Tree) : (stop : String) → (isMarker : String → Bool) →
    (inner marks : List Field) → Prop
  | nil {stop : String} {isMarker : String → Bool} : Filled r t stop isMarker [] []
  | mark {stop : String} {isMarker : String → Bool} {f : Field} {inner marks : List Field} :
      f.expression ≠ stop → isMarker f.expression = true → Filled r t stop isMarker inner marks →
      Filled r t stop isMarker (f :: inner) (f :: marks)
  | lone {stop : String} {isMarker : String → Bool} {f : Field} {inner marks : List Field} :
      f.expression ≠ stop → isMarker f.expression = false → closing? r f = none →
      Filled r t stop isMarker inner marks → Filled r t stop isMarker (f :: inner) marks
  | block {stop stop' : String} {isMarker isMarker' : String → Bool} {f e : Field}
      {inner inner' marks marks' : List Field} {s : Statement} :
      f.expression ≠ stop → isMarker f.expression = false → closing? r f = some (stop', isMarker') →
      Filled r t stop' isMarker' inner' marks' → e.expression = stop' →
      Closes t f (r.directive f.expression) marks' e s → Filled r t stop isMarker inner marks →
      Filled r t stop isMarker (f :: inner' ++ e :: inner) marks

theorem Filled.marks_sublist {r : Registry} {t : Tree} {stop : String} {isMarker : String → Bool} {inner marks : List Field}
    (h : Filled r t stop isMarker inner marks) : marks.Sublist inner := by
  induction h with
  | nil => exact .refl []
  | mark _ _ _ ih => exact ih.cons_cons _
  | lone _ _ _ _ ih => exact ih.cons _
  | block _ _ _ _ _ _ _ _ ih =>
    rw [List.cons_append]
    exact ((ih.cons _).trans (List.sublist_append_right _ _)).cons _

theorem Filled.append {r : Registry} {t : Tree} {stop : String} {isMarker : String → Bool} {inner inner' marks marks' : List Field}
    (h : Filled r t stop isMarker inner marks) (h' : Filled r t stop isMarker inner' marks') :
    Filled r t stop isMarker (inner ++ inner') (marks ++ marks') := by
  induction h with
  | nil => exact h'
  | mark hs hm _ ih => exact .mark hs hm (ih h')
  | lone hs hm hc _ ih => exact .lone hs hm hc (ih h')
  | block hs hm hc hfill he hclose _ _ ih =>
    rw [List.append_assoc, List.cons_append]
    exact .block hs hm hc hfill he hclose (ih h')

/-- A ledger that has more references of fields, and else the same. -/
structure Extends (l l' : Ledger) : Prop where
  nodes : l'.nodes = l.nodes
  pinned : l'.pinned = l.pinned
  fields : ∀ m, l.fields.count m ≤ l'.fields.count m

theorem Extends.refl (l : Ledger) : Extends l l := ⟨rfl, rfl, fun _ => Nat.le_refl _⟩

theorem Extends.trans {l l' l'' : Ledger} (h : Extends l l') (h' : Extends l' l'') : Extends l l'' :=
  ⟨h'.nodes.trans h.nodes, h'.pinned.trans h.pinned, fun m => Nat.le_trans (h.fields m) (h'.fields m)⟩

theorem extends_refer (l : Ledger) (b : Block) : Extends l (l.refer b) := by
  refine ⟨rfl, rfl, fun m => ?_⟩
  simp only [Ledger.refer, Ledger.addField, List.count_cons]
  omega

theorem extends_foldl_enter (t : Tree) (bs : List Block) (l : Ledger) :
    Extends l (bs.foldl (Ledger.enter t true) l) := by
  induction bs generalizing l with
  | nil => exact .refl l
  | cons b bs ih => exact (extends_refer l b).trans (ih _)

theorem takeUntil_cons {r : Registry} {t : Tree} {start f : Field} {stop : String} {isMarker : String → Bool}
    {l l' : Ledger} {fields marks : List Field} {e : Field} {rest : List Field} :
    (∃ more, takeUntil r t start stop isMarker l (f :: fields) = .ok (marks, e, l', more) ∧ more.1 = rest) ↔
      (f.expression = stop ∧ marks = [] ∧ e = f ∧ l' = l ∧ rest = fields) ∨
      (f.expression ≠ stop ∧ isMarker f.expression = true ∧ ∃ marks' more, marks = f :: marks' ∧
        takeUntil r t start stop isMarker l fields = .ok (marks', e, l', more) ∧ more.1 = rest) ∨
      (f.expression ≠ stop ∧ isMarker f.expression = false ∧ ∃ s? l₁ left more,
        takeField r t true false l f fields = .ok (s?, l₁, left) ∧
        takeUntil r t start stop isMarker l₁ left.1 = .ok (marks, e, l', more) ∧ more.1 = rest) := by
  rw [takeUntil]
  by_cases hs : f.expression = stop
  · simp only [hs, if_true, ne_eq, not_true_eq_false, false_and, or_false, true_and, Except.ok.injEq, Prod.mk.injEq]
    constructor
    · rintro ⟨more, ⟨rfl, rfl, rfl, rfl⟩, rfl⟩; exact ⟨rfl, rfl, rfl, rfl⟩
    · rintro ⟨rfl, rfl, rfl, rfl⟩; exact ⟨_, ⟨rfl, rfl, rfl, rfl⟩, rfl⟩
  · by_cases hm : isMarker f.expression = true
    · simp only [hs, hm, if_true, if_false, bind_eq_ok, Prod.exists, Except.ok.injEq, Prod.mk.injEq, false_and,
        false_or, ne_eq, not_false_eq_true, true_and, Bool.true_eq_false, or_false]
      constructor
      · rintro ⟨more, ⟨marks', e', l₁, left, h, rfl, rfl, rfl, rfl⟩, rfl⟩
        exact ⟨marks', left, rfl, h, rfl⟩
      · rintro ⟨marks', left, rfl, h, rfl⟩
        exact ⟨_, ⟨marks', _, _, left, h, rfl, rfl, rfl, rfl⟩, rfl⟩
    · rw [Bool.not_eq_true] at hm
      simp only [hs, hm, if_false, bind_eq_ok, Prod.exists, Except.ok.injEq, Prod.mk.injEq, false_and,
        false_or, ne_eq, not_false_eq_true, true_and, Bool.false_eq_true]
      constructor
      · rintro ⟨more, ⟨s?, l₁, left, h, marks', e', l₂, left', h', rfl, rfl, rfl, rfl⟩, rfl⟩
        exact ⟨s?, l₁, left, left', h, h', rfl⟩
      · rintro ⟨s?, l₁, left, left', h, h', rfl⟩
        exact ⟨_, ⟨s?, l₁, left, h, _, _, _, left', h', rfl, rfl, rfl, rfl⟩, rfl⟩

theorem isMarker_of_takeUntil {r : Registry} {t : Tree} {start : Field} {stop : String} {isMarker : String → Bool}
    {l l' : Ledger} {fields marks : List Field} {e : Field} {rest : Rest fields}
    (h : takeUntil r t start stop isMarker l fields = .ok (marks, e, l', rest)) :
    ∀ m ∈ marks, isMarker m.expression = true := by
  induction hn : fields.length using Nat.strongRecOn generalizing fields l l' marks with
  | ind n ih =>
    cases fields with
    | nil => rw [takeUntil] at h; cases h
    | cons f fields =>
      rw [List.length_cons] at hn
      rcases takeUntil_cons.mp ⟨rest, h, rfl⟩ with ⟨-, rfl, -⟩ | ⟨-, hm, marks', more, rfl, h, -⟩ |
        ⟨-, -, s?, l₁, left, more, -, h, -⟩
      · intro m hm; cases hm
      · intro m hmem
        rcases List.mem_cons.mp hmem with rfl | hmem
        · exact hm
        · exact ih fields.length (by omega) h rfl m hmem
      · have := left.2
        exact ih left.1.length (by omega) h rfl

/-- What taking a field that starts a block comes to. -/
theorem takeField_eq_ok {r : Registry} {t : Tree} {nested insertions : Bool} {l l' : Ledger} {f : Field}
    {fields : List Field} {s? : Option Statement} {rest : Rest fields} {stop : String} {isMarker : String → Bool}
    (hc : closing? r f = some (stop, isMarker)) :
    takeField r t nested insertions l f fields = .ok (s?, l', rest) ↔
      ∃ marks e l₁ s, takeUntil r t f stop isMarker l fields = .ok (marks, e, l₁, rest) ∧
        Closes t f (r.directive f.expression) marks e s ∧ s? = some s ∧
        l' = s.blocks.foldl (Ledger.enter t nested) l₁ := by
  have hnone : ∀ {marks e l₁} {rest : Rest fields},
      takeUntil r t f stop (fun _ => false) l fields = .ok (marks, e, l₁, rest) → marks = [] := by
    intro marks e l₁ rest h
    refine List.eq_nil_iff_forall_not_mem.mpr fun m hm => ?_
    exact Bool.false_ne_true (isMarker_of_takeUntil h m hm)
  unfold closing? at hc
  rw [takeField]
  cases hd : r.directive f.expression with
  | insertion text => rw [hd] at hc; cases hc
  | value o => rw [hd] at hc; cases hc
  | nothing => rw [hd] at hc; cases hc
  | loop list iterator stop =>
    rw [hd] at hc; cases hc
    simp only [bind_eq_ok, Prod.exists, operand_eq_ok, enclose_eq_ok, Except.ok.injEq, Prod.mk.injEq]
    constructor
    · rintro ⟨marks, e, l₁, left, h, o, ho, b, l₂, ⟨hb, rfl⟩, rfl, rfl, rfl⟩
      obtain rfl := hnone h
      exact ⟨[], e, l₁, _, h, .loop ho hb, rfl, rfl⟩
    · rintro ⟨marks, e, l₁, s, h, hs, rfl, rfl⟩
      cases hs with
      | loop ho hb => exact ⟨_, _, _, _, h, _, ho, _, _, ⟨hb, rfl⟩, rfl, rfl, rfl⟩
  | conditional guard =>
    rw [hd] at hc; cases hc
    simp only [bind_eq_ok, Prod.exists, conditional_eq_ok, Except.ok.injEq, Prod.mk.injEq]
    constructor
    · rintro ⟨marks, e, l₁, left, h, s, l₂, ⟨hs, rfl⟩, rfl, rfl, rfl⟩
      exact ⟨marks, e, l₁, s, h, hs, rfl, rfl⟩
    · rintro ⟨marks, e, l₁, s, h, hs, rfl, rfl⟩
      exact ⟨_, _, _, _, h, _, _, ⟨hs, rfl⟩, rfl, rfl, rfl⟩
  | picture name =>
    rw [hd] at hc; cases hc
    simp only [bind_eq_ok, Prod.exists, operand_eq_ok, enclose_eq_ok, Except.ok.injEq, Prod.mk.injEq]
    constructor
    · rintro ⟨marks, e, l₁, left, h, o, ho, b, l₂, ⟨hb, rfl⟩, rfl, rfl, rfl⟩
      obtain rfl := hnone h
      exact ⟨[], e, l₁, _, h, .picture ho hb, rfl, rfl⟩
    · rintro ⟨marks, e, l₁, s, h, hs, rfl, rfl⟩
      cases hs with
      | picture ho hb => exact ⟨_, _, _, _, h, _, ho, _, _, ⟨hb, rfl⟩, rfl, rfl, rfl⟩
  | comment =>
    rw [hd] at hc; cases hc
    simp only [bind_eq_ok, Prod.exists, enclose_eq_ok, Except.ok.injEq, Prod.mk.injEq]
    constructor
    · rintro ⟨marks, e, l₁, left, h, b, l₂, ⟨hb, rfl⟩, rfl, rfl, rfl⟩
      obtain rfl := hnone h
      exact ⟨[], e, l₁, _, h, .comment hb, rfl, rfl⟩
    · rintro ⟨marks, e, l₁, s, h, hs, rfl, rfl⟩
      cases hs with
      | comment hb => exact ⟨_, _, _, _, h, _, _, ⟨hb, rfl⟩, rfl, rfl, rfl⟩

/-- The operand of a field that asks for an insertion. -/
def Inserts (r : Registry) (f : Field) (o : Operand) : Prop :=
  (∃ text, r.directive f.expression = .insertion text ∧ Operand.parse text = .ok o) ∨ r.directive f.expression = .value o

theorem takeField_nested_of_none {r : Registry} {t : Tree} {nested : Bool} {l : Ledger} {f : Field} (fields : List Field)
    (hc : closing? r f = none) : takeField r t nested false l f fields = .ok (none, l, ⟨fields, Nat.le_refl _⟩) := by
  unfold closing? at hc
  rw [takeField]
  cases hd : r.directive f.expression with
  | insertion text => rfl
  | value o => rfl
  | nothing => rfl
  | _ => rw [hd] at hc; cases hc

theorem takeField_top_of_none {r : Registry} {t : Tree} {nested : Bool} {l l' : Ledger} {f : Field} {fields : List Field}
    {s? : Option Statement} {rest : Rest fields} (hc : closing? r f = none) :
    takeField r t nested true l f fields = .ok (s?, l', rest) ↔ l' = l ∧ rest = ⟨fields, Nat.le_refl _⟩ ∧
      ((s? = none ∧ r.directive f.expression = .nothing) ∨ ∃ o, Inserts r f o ∧ s? = some (.insertion f o)) := by
  unfold closing? at hc
  unfold Inserts
  rw [takeField]
  cases hd : r.directive f.expression with
  | insertion text =>
    simp only [if_true, bind_eq_ok, operand_eq_ok, Except.ok.injEq, Prod.mk.injEq, Directive.insertion.injEq]
    constructor
    · rintro ⟨o, ho, rfl, rfl, rfl⟩
      exact ⟨rfl, rfl, Or.inr ⟨o, Or.inl ⟨text, rfl, ho⟩, rfl⟩⟩
    · rintro ⟨rfl, rfl, ⟨-, h⟩ | ⟨o, ⟨text', rfl, ho⟩ | h, rfl⟩⟩
      · cases h
      · exact ⟨o, ho, rfl, rfl, rfl⟩
      · cases h
  | value o =>
    simp only [if_true, Except.ok.injEq, Prod.mk.injEq, Directive.value.injEq]
    constructor
    · rintro ⟨rfl, rfl, rfl⟩
      exact ⟨rfl, rfl, Or.inr ⟨o, Or.inr rfl, rfl⟩⟩
    · rintro ⟨rfl, rfl, ⟨-, h⟩ | ⟨o, ⟨text', h, -⟩ | rfl, rfl⟩⟩
      · cases h
      · cases h
      · exact ⟨rfl, rfl, rfl⟩
  | nothing =>
    simp only [Except.ok.injEq, Prod.mk.injEq, and_true]
    constructor
    · rintro ⟨rfl, rfl, rfl⟩
      exact ⟨rfl, rfl, Or.inl rfl⟩
    · rintro ⟨rfl, rfl, rfl | ⟨o, ⟨text', h, -⟩ | h, -⟩⟩
      · exact ⟨rfl, rfl, rfl⟩
      · cases h
      · cases h
  | _ => rw [hd] at hc; cases hc

/-- What stands in front of the field found is made of groups. -/
theorem takeUntil_eq_ok {r : Registry} {t : Tree} {start : Field} {stop : String} {isMarker : String → Bool}
    {l l' : Ledger} {fields marks : List Field} {e : Field} {rest : Rest fields}
    (h : takeUntil r t start stop isMarker l fields = .ok (marks, e, l', rest)) :
    ∃ inner, fields = inner ++ e :: rest.1 ∧ e.expression = stop ∧ Filled r t stop isMarker inner marks ∧
      Extends l l' := by
  obtain ⟨n, hn⟩ : ∃ n, fields.length = n := ⟨_, rfl⟩
  induction n using Nat.strongRecOn generalizing start stop isMarker fields l l' marks e with
  | ind n ih =>
    cases fields with
    | nil => rw [takeUntil] at h; cases h
    | cons f fields =>
      rw [List.length_cons] at hn
      rcases takeUntil_cons.mp ⟨rest, h, rfl⟩ with ⟨hs, rfl, rfl, rfl, hr⟩ | ⟨hs, hm, marks', more, rfl, h, hr⟩ |
        ⟨hs, hm, s?, l₁, left, more, hf, h, hr⟩
      · exact ⟨[], by rw [hr]; rfl, hs, .nil, .refl _⟩
      · obtain ⟨inner, hi, he, hfill, hl⟩ := ih fields.length (by omega) h rfl
        exact ⟨f :: inner, by rw [← hr, List.cons_append, ← hi], he, .mark hs hm hfill, hl⟩
      · have hle := left.2
        obtain ⟨inner, hi, he, hfill, hl⟩ := ih left.1.length (by omega) h rfl
        cases hc : closing? r f with
        | none =>
          rw [takeField_nested_of_none fields hc] at hf
          cases hf
          exact ⟨f :: inner, by rw [← hr, List.cons_append, ← hi], he, .lone hs hm hc hfill, hl⟩
        | some closing =>
          obtain ⟨stop', isMarker'⟩ := closing
          obtain ⟨marks', e', l₀, s, h', hclose, -, rfl⟩ := (takeField_eq_ok hc).mp hf
          obtain ⟨inner', hi', he', hfill', hl'⟩ := ih fields.length (by omega) h' rfl
          refine ⟨f :: inner' ++ e' :: inner, ?_, he, .block hs hm hc hfill' he' hclose hfill,
            (hl'.trans (extends_foldl_enter t _ _)).trans hl⟩
          have hsplit : fields = inner' ++ e' :: (inner ++ e :: more.1) := by rw [← hi]; exact hi'
          rw [← hr, List.cons_append, List.cons_append, List.append_assoc, List.cons_append, ← hsplit]

/-- Groups in front of a field that ends the block are taken, and the field is found. -/
theorem exists_takeUntil_eq_ok {r : Registry} {t : Tree} {stop : String} {isMarker : String → Bool}
    {inner marks : List Field} (h : Filled r t stop isMarker inner marks) {e : Field} (he : e.expression = stop)
    (start : Field) (l : Ledger) (after : List Field) :
    ∃ l' rest, takeUntil r t start stop isMarker l (inner ++ e :: after) = .ok (marks, e, l', rest) ∧ rest.1 = after := by
  induction h generalizing start l after e with
  | @nil stop isMarker =>
    have hfound : ∃ more, takeUntil r t start stop isMarker l (e :: after) = .ok ([], e, l, more) ∧ more.1 = after :=
      takeUntil_cons.mpr (Or.inl ⟨he, rfl, rfl, rfl, rfl⟩)
    obtain ⟨more, hmore⟩ := hfound
    exact ⟨l, more, hmore⟩
  | @mark stop isMarker f inner marks hs hm hfill ih =>
    obtain ⟨l', rest, hrec, hrest⟩ := ih he start l after
    obtain ⟨more, hmore⟩ := takeUntil_cons.mpr (Or.inr (Or.inl ⟨hs, hm, marks, rest, rfl, hrec, hrest⟩))
    exact ⟨l', more, hmore⟩
  | @lone stop isMarker f inner marks hs hm hc hfill ih =>
    obtain ⟨l', rest, hrec, hrest⟩ := ih he start l after
    have hf : takeField r t true false l f (inner ++ e :: after) = _ := takeField_nested_of_none _ hc
    obtain ⟨more, hmore⟩ := takeUntil_cons.mpr (Or.inr (Or.inr ⟨hs, hm, none, l, _, rest, hf, hrec, hrest⟩))
    exact ⟨l', more, hmore⟩
  | @block stop stop' isMarker isMarker' f e' inner inner' marks marks' s hs hm hc hfill' he' hclose hfill ih' ih =>
    obtain ⟨l₁, left, hleft, hl⟩ := ih' he' f l (inner ++ e :: after)
    have hf : takeField r t true false l f _ = .ok (some s, s.blocks.foldl (Ledger.enter t true) l₁, left) :=
      (takeField_eq_ok hc).mpr ⟨_, _, _, _, hleft, hclose, rfl, rfl⟩
    obtain ⟨l', rest, hrec, hrest⟩ := ih he start (s.blocks.foldl (Ledger.enter t true) l₁) after
    have hmore : ∃ more, takeUntil r t start stop isMarker (s.blocks.foldl (Ledger.enter t true) l₁) left.1 =
        .ok (marks, e, l', more) ∧ more.1 = after := by
      rw [hl]; exact ⟨rest, hrec, hrest⟩
    obtain ⟨more, hmore, hafter⟩ := hmore
    have hsplit : f :: inner' ++ e' :: inner ++ e :: after = f :: (inner' ++ e' :: (inner ++ e :: after)) := by simp
    rw [hsplit]
    obtain ⟨more, hmore⟩ := takeUntil_cons.mpr (Or.inr (Or.inr ⟨hs, hm, _, _, left, more, hf, hmore, hafter⟩))
    exact ⟨l', more, hmore⟩

/-- How the statements of a scan follow the groups of its fields. -/
inductive Outlined (r : Registry) (t : Tree) : List Field → List Statement → Prop
  | nil : Outlined r t [] []
  | skip {f : Field} {rest : List Field} {ss : List Statement} : r.directive f.expression = .nothing →
      Outlined r t rest ss → Outlined r t (f :: rest) ss
  | insertion {f : Field} {o : Operand} {rest : List Field} {ss : List Statement} : Inserts r f o →
      Outlined r t rest ss → Outlined r t (f :: rest) (.insertion f o :: ss)
  | block {f e : Field} {stop : String} {isMarker : String → Bool} {inner marks rest : List Field} {s : Statement}
      {ss : List Statement} : closing? r f = some (stop, isMarker) → Filled r t stop isMarker inner marks →
      e.expression = stop → Closes t f (r.directive f.expression) marks e s → Outlined r t rest ss →
      Outlined r t (f :: inner ++ e :: rest) (s :: ss)

theorem Outlined.append {r : Registry} {t : Tree} {fs fs' : List Field} {ss ss' : List Statement}
    (h : Outlined r t fs ss) (h' : Outlined r t fs' ss') : Outlined r t (fs ++ fs') (ss ++ ss') := by
  induction h with
  | nil => exact h'
  | skip hd _ ih => exact .skip hd ih
  | insertion ho _ ih => exact .insertion ho ih
  | block hc hfill he hclose _ ih =>
    rw [List.append_assoc, List.cons_append]
    exact .block hc hfill he hclose ih

theorem takeAll_cons {r : Registry} {t : Tree} {l l' : Ledger} {f : Field} {fields : List Field}
    {ss : List Statement} :
    takeAll r t l (f :: fields) = .ok (ss, l') ↔ ∃ s? l₁ left ss', takeField r t false true l f fields = .ok (s?, l₁, left) ∧
      takeAll r t l₁ left.1 = .ok (ss', l') ∧ ss = s?.toList ++ ss' := by
  rw [takeAll]
  simp only [bind_eq_ok, Prod.exists, Except.ok.injEq, Prod.mk.injEq]
  constructor
  · rintro ⟨s?, l₁, left, hf, ss', l₂, h, rfl, rfl⟩; exact ⟨s?, l₁, left, ss', hf, h, rfl⟩
  · rintro ⟨s?, l₁, left, ss', hf, h, rfl⟩; exact ⟨s?, l₁, left, hf, ss', l', h, rfl, rfl⟩

theorem closing?_of_inserts {r : Registry} {f : Field} {o : Operand} (h : Inserts r f o) : closing? r f = none := by
  rcases h with ⟨text, hd, -⟩ | hd <;> rw [closing?, hd] <;> rfl

theorem outlined_of_takeAll {r : Registry} {t : Tree} {l l' : Ledger} {fields : List Field} {ss : List Statement}
    (h : takeAll r t l fields = .ok (ss, l')) : Outlined r t fields ss := by
  obtain ⟨n, hn⟩ : ∃ n, fields.length = n := ⟨_, rfl⟩
  induction n using Nat.strongRecOn generalizing fields l ss with
  | ind n ih =>
    cases fields with
    | nil => rw [takeAll] at h; cases h; exact .nil
    | cons f fields =>
      rw [List.length_cons] at hn
      obtain ⟨s?, l₁, left, ss', hf, hrec, rfl⟩ := takeAll_cons.mp h
      have hle := left.2
      have hrest := ih left.1.length (by omega) hrec rfl
      cases hc : closing? r f with
      | none =>
        obtain ⟨rfl, rfl, ⟨rfl, hd⟩ | ⟨o, ho, rfl⟩⟩ := (takeField_top_of_none hc).mp hf
        · exact .skip hd hrest
        · exact .insertion ho hrest
      | some closing =>
        obtain ⟨stop, isMarker⟩ := closing
        obtain ⟨marks, e, l₂, s, h', hclose, rfl, rfl⟩ := (takeField_eq_ok hc).mp hf
        obtain ⟨inner, hi, he, hfill, -⟩ := takeUntil_eq_ok h'
        have hsplit : f :: fields = f :: inner ++ e :: left.1 := by rw [List.cons_append, ← hi]
        rw [hsplit]
        exact .block hc hfill he hclose hrest

theorem exists_takeAll_eq_ok {r : Registry} {t : Tree} {fields : List Field} {ss : List Statement}
    (h : Outlined r t fields ss) (l : Ledger) : ∃ l', takeAll r t l fields = .ok (ss, l') := by
  induction h generalizing l with
  | nil => exact ⟨l, by rw [takeAll]⟩
  | @skip f rest ss hd hrest ih =>
    obtain ⟨l', hl⟩ := ih l
    have hc : closing? r f = none := by rw [closing?, hd]; rfl
    exact ⟨l', takeAll_cons.mpr ⟨none, l, _, ss, (takeField_top_of_none hc).mpr ⟨rfl, rfl, Or.inl ⟨rfl, hd⟩⟩, hl, rfl⟩⟩
  | @insertion f o rest ss ho hrest ih =>
    obtain ⟨l', hl⟩ := ih l
    have hf : takeField r t false true l f rest = .ok (some (.insertion f o), l, ⟨rest, Nat.le_refl _⟩) :=
      (takeField_top_of_none (closing?_of_inserts ho)).mpr ⟨rfl, rfl, Or.inr ⟨o, ho, rfl⟩⟩
    exact ⟨l', takeAll_cons.mpr ⟨_, l, _, ss, hf, hl, rfl⟩⟩
  | @block f e stop isMarker inner marks rest s ss hc hfill he hclose hrest ih =>
    obtain ⟨l₁, left, hleft, hl⟩ := exists_takeUntil_eq_ok hfill he f l rest
    have hf : takeField r t false true l f _ = .ok (some s, s.blocks.foldl (Ledger.enter t false) l₁, left) :=
      (takeField_eq_ok hc).mpr ⟨_, _, _, _, hleft, hclose, rfl, rfl⟩
    obtain ⟨l', hrec⟩ := ih (s.blocks.foldl (Ledger.enter t false) l₁)
    rw [← hl] at hrec
    exact ⟨l', takeAll_cons.mpr ⟨_, _, left, ss, hf, hrec, rfl⟩⟩

/-- A scan has the statements that its groups make, and they are all it can have. -/
theorem ofFields_iff {r : Registry} {t : Tree} {fields : List Field} {ss : List Statement} :
    (∃ l, ofFields r t fields = .ok (ss, l)) ↔ Outlined r t fields ss :=
  ⟨fun ⟨_, h⟩ => outlined_of_takeAll h, fun h => exists_takeAll_eq_ok h Ledger.empty⟩

theorem Outlined.resolves {r : Registry} {t : Tree} {fields : List Field} {ss : List Statement}
    (h : Outlined r t fields ss) {s : Statement} (hs : s ∈ ss) {b : Block} (hb : b ∈ s.blocks) :
    Block.resolve? t b.startField b.endField = some b := by
  induction h with
  | nil => cases hs
  | skip _ _ ih => exact ih hs
  | insertion _ _ ih =>
    rcases List.mem_cons.mp hs with rfl | hs
    · cases hb
    · exact ih hs
  | block _ _ _ hclose _ ih =>
    rcases List.mem_cons.mp hs with rfl | hs
    · exact hclose.resolves hb
    · exact ih hs

theorem Outlined.mem_fields {r : Registry} {t : Tree} {fields : List Field} {ss : List Statement}
    (h : Outlined r t fields ss) {s : Statement} (hs : s ∈ ss) : (∀ f o, s = .insertion f o → f ∈ fields) ∧
      ∀ b ∈ s.blocks, b.startField ∈ fields ∧ b.endField ∈ fields := by
  induction h with
  | nil => cases hs
  | skip _ _ ih => exact ⟨fun f o he => List.mem_cons_of_mem _ ((ih hs).1 f o he),
      fun b hb => ⟨List.mem_cons_of_mem _ ((ih hs).2 b hb).1, List.mem_cons_of_mem _ ((ih hs).2 b hb).2⟩⟩
  | insertion _ _ ih =>
    rcases List.mem_cons.mp hs with rfl | hs
    · refine ⟨fun f o he => ?_, fun b hb => nomatch hb⟩
      cases he
      exact List.mem_cons_self
    · exact ⟨fun f o he => List.mem_cons_of_mem _ ((ih hs).1 f o he),
        fun b hb => ⟨List.mem_cons_of_mem _ ((ih hs).2 b hb).1, List.mem_cons_of_mem _ ((ih hs).2 b hb).2⟩⟩
  | @block f e stop isMarker inner marks rest s' ss _ hfill _ hclose _ ih =>
    rcases List.mem_cons.mp hs with rfl | hs
    · have hsub : ∀ g ∈ f :: marks ++ [e], g ∈ f :: inner ++ e :: rest := by
        intro g hg
        simp only [List.cons_append, List.mem_cons, List.mem_append, List.not_mem_nil, or_false] at hg ⊢
        rcases hg with hg | hg | hg
        · exact Or.inl hg
        · exact Or.inr (Or.inl (hfill.marks_sublist.subset hg))
        · exact Or.inr (Or.inr (Or.inl hg))
      refine ⟨fun g o he => ?_, fun b hb => ⟨hsub _ (hclose.mem_ends hb).1, hsub _ (hclose.mem_ends hb).2⟩⟩
      subst he
      exact hclose.ne_insertion.elim
    · have hsub : ∀ g ∈ rest, g ∈ f :: inner ++ e :: rest := fun g hg => by simp [hg]
      exact ⟨fun g o he => hsub g ((ih hs).1 g o he),
        fun b hb => ⟨hsub _ ((ih hs).2 b hb).1, hsub _ ((ih hs).2 b hb).2⟩⟩

/-- The fields at the top level stand in the order of the scan. -/
theorem Outlined.topFields_sublist {r : Registry} {t : Tree} {fields : List Field} {ss : List Statement}
    (h : Outlined r t fields ss) : (ss.flatMap topFields).Sublist fields := by
  induction h with
  | nil => exact .refl []
  | skip _ _ ih => exact ih.cons _
  | insertion _ _ ih => exact ih.cons_cons _
  | block _ hfill _ hclose _ ih =>
    rw [List.flatMap_cons, hclose.topFields, List.cons_append, List.cons_append, List.append_assoc]
    exact (hfill.marks_sublist.append (ih.cons_cons _)).cons_cons _

theorem Outlined.beside {r : Registry} {t : Tree} {fields : List Field} {ss : List Statement} (h : Outlined r t fields ss)
    {s : Statement} (hs : s ∈ ss) {b : Block} (hb : b ∈ s.blocks) :
    ∃ pre post, topFields s = pre ++ b.startField :: b.endField :: post := by
  induction h with
  | nil => cases hs
  | skip _ _ ih => exact ih hs
  | insertion _ _ ih =>
    rcases List.mem_cons.mp hs with rfl | hs
    · cases hb
    · exact ih hs
  | block _ _ _ hclose _ ih =>
    rcases List.mem_cons.mp hs with rfl | hs
    · rw [hclose.topFields]
      have hmem : b.ends ∈ _ := hclose.ends ▸ List.mem_map_of_mem hb
      exact beside_of_mem_zip hmem
    · exact ih hs

/-- No field at the top level stands between the boundary fields of a block. -/
theorem Outlined.outside {r : Registry} {t : Tree} {fields : List Field} {ss : List Statement} (h : Outlined r t fields ss)
    {b : Block} (hb : b ∈ ss.flatMap Statement.blocks) {g : Field} (hg : g ∈ ss.flatMap topFields) :
    g = b.startField ∨ g = b.endField ∨ [g, b.startField].Sublist fields ∨ [b.endField, g].Sublist fields := by
  obtain ⟨s, hs, hbs⟩ := List.mem_flatMap.mp hb
  obtain ⟨pre, post, hsplit⟩ := h.beside hs hbs
  obtain ⟨before, after, rfl⟩ := List.append_of_mem hs
  have htops := h.topFields_sublist
  have hcut : (before ++ s :: after).flatMap topFields = (before.flatMap topFields ++ pre) ++ b.startField :: b.endField ::
      (post ++ after.flatMap topFields) := by
    rw [List.flatMap_append, List.flatMap_cons, hsplit]
    simp
  rw [hcut] at hg htops
  rcases List.mem_append.mp hg with hg | hg
  · refine Or.inr (Or.inr (Or.inl (List.Sublist.trans ?_ htops)))
    exact (List.singleton_sublist.mpr hg).append ((List.nil_sublist _).cons_cons b.startField)
  rcases List.mem_cons.mp hg with hg | hg
  · exact Or.inl hg
  rcases List.mem_cons.mp hg with hg | hg
  · exact Or.inr (Or.inl hg)
  · refine Or.inr (Or.inr (Or.inr (List.Sublist.trans ?_ htops)))
    exact (((List.singleton_sublist.mpr hg).cons_cons b.endField).cons b.startField).trans (List.sublist_append_right _ _)

theorem Outlined.mem_topFields {r : Registry} {t : Tree} {fields : List Field} {ss : List Statement}
    (h : Outlined r t fields ss) {b : Block} (hb : b ∈ ss.flatMap Statement.blocks) :
    b.startField ∈ ss.flatMap topFields ∧ b.endField ∈ ss.flatMap topFields := by
  obtain ⟨s, hs, hbs⟩ := List.mem_flatMap.mp hb
  obtain ⟨pre, post, hsplit⟩ := h.beside hs hbs
  exact ⟨List.mem_flatMap.mpr ⟨s, hs, by rw [hsplit]; simp⟩, List.mem_flatMap.mpr ⟨s, hs, by rw [hsplit]; simp⟩⟩

end Outline

end MailMerge
