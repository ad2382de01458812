/-
  MailMerge.Proofs.Outline.Built — all the blocks that a build resolves.

  A build resolves more blocks than its statements have: between the fields that bound a block
  it resolves nested ones, only to see where they end. `Passed` lists those in front of the
  field that ends a block, and `Built` those of a whole scan, each with the group that they are
  resolved for. The relations follow `Filled` and `Outlined`.

  Proved: a scan that has statements has such a list, and by any such list a field has as many
  references in the ledger as there are blocks in it that the field bounds
  (`fieldCount_of_built`).
-/

import MailMerge.Proofs.Block.Uses

namespace MailMerge

open MailMerge.Tree

namespace Outline

/-- `Filled`, with the blocks that are resolved in front of the field that is looked for. -/
inductive Passed (r : Registry) (t : Tree) : (stop : String) → (isMarker : String → Bool) →
    (inner marks : List Field) → (bs : List Block) → Prop
  | nil {stop : String} {isMarker : String → Bool} : Passed r t stop isMarker [] [] []
  | mark {stop : String} {isMarker : String → Bool} {f : Field} {inner marks : List Field} {bs : List Block} :
      f.expression ≠ stop → isMarker f.expression = true → Passed r t stop isMarker inner marks bs →
      Passed r t stop isMarker (f :: inner) (f :: marks) bs
  | lone {stop : String} {isMarker : String → Bool} {f : Field} {inner marks : List Field} {bs : List Block} :
      f.expression ≠ stop → isMarker f.expression = false → closing? r f = none →
      Passed r t stop isMarker inner marks bs → Passed r t stop isMarker (f :: inner) marks bs
  | block {stop stop' : String} {isMarker isMarker' : String → Bool} {f e : Field}
      {inner inner' marks marks' : List Field} {s : Statement} {bs bs' : List Block} :
      f.expression ≠ stop → isMarker f.expression = false → closing? r f = some (stop', isMarker') →
      Passed r t stop' isMarker' inner' marks' bs' → e.expression = stop' →
      Closes t f (r.directive f.expression) marks' e s → Passed r t stop isMarker inner marks bs →
      Passed r t stop isMarker (f :: inner' ++ e :: inner) marks (bs' ++ s.blocks ++ bs)

/-- `Outlined`, with all blocks that are resolved. -/
inductive Built (r : Registry) (t : Tree) : List Field → List Statement → List Block → Prop
  | nil : Built r t [] [] []
  | skip {f : Field} {rest : List Field} {ss : List Statement} {bs : List Block} : r.directive f.expression = .nothing →
      Built r t rest ss bs → Built r t (f :: rest) ss bs
  | insertion {f : Field} {o : Operand} {rest : List Field} {ss : List Statement} {bs : List Block} : Inserts r f o →
      Built r t rest ss bs → Built r t (f :: rest) (.insertion f o :: ss) bs
  | block {f e : Field} {stop : String} {isMarker : String → Bool} {inner marks rest : List Field} {s : Statement}
      {ss : List Statement} {bs bs' : List Block} : closing? r f = some (stop, isMarker) →
      Passed r t stop isMarker inner marks bs' → e.expression = stop → Closes t f (r.directive f.expression) marks e s →
      Built r t rest ss bs → Built r t (f :: inner ++ e :: rest) (s :: ss) (bs' ++ s.blocks ++ bs)

variable {r : Registry} {t : Tree} {stop : String} {isMarker : String → Bool} {inner marks fields : List Field}
  {ss : List Statement} {bs : List Block}

theorem Filled.exists_passed (h : Filled r t stop isMarker inner marks) : ∃ bs, Passed r t stop isMarker inner marks bs := by
  induction h with
  | nil => exact ⟨_, .nil⟩
  | mark hs hm _ ih =>
    obtain ⟨bs, hbs⟩ := ih
    exact ⟨bs, .mark hs hm hbs⟩
  | lone hs hm hc _ ih =>
    obtain ⟨bs, hbs⟩ := ih
    exact ⟨bs, .lone hs hm hc hbs⟩
  | block hs hm hc _ he hclose _ ih' ih =>
    obtain ⟨bs', hbs'⟩ := ih'
    obtain ⟨bs, hbs⟩ := ih
    exact ⟨_, .block hs hm hc hbs' he hclose hbs⟩

theorem Outlined.exists_built (h : Outlined r t fields ss) : ∃ bs, Built r t fields ss bs := by
  induction h with
  | nil => exact ⟨_, .nil⟩
  | skip hd _ ih =>
    obtain ⟨bs, hbs⟩ := ih
    exact ⟨bs, .skip hd hbs⟩
  | insertion ho _ ih =>
    obtain ⟨bs, hbs⟩ := ih
    exact ⟨bs, .insertion ho hbs⟩
  | block hc hfill he hclose _ ih =>
    obtain ⟨bs', hbs'⟩ := hfill.exists_passed
    obtain ⟨bs, hbs⟩ := ih
    exact ⟨_, .block hc hbs' he hclose hbs⟩

/-! ## Boundary fields -/

/-- A block of a statement reaches from one boundary field of the group to the next. -/
theorem Closes.ends_sublist {f e : Field} {d : Directive} {s : Statement} (h : Closes t f d marks e s) {b : Block}
    (hb : b ∈ s.blocks) : [b.startField, b.endField].Sublist (f :: marks ++ [e]) := by
  have hmem : b.ends ∈ (f :: (marks ++ [e])).zip (marks ++ [e]) := h.ends ▸ List.mem_map_of_mem hb
  obtain ⟨before, after, hsplit⟩ := beside_of_mem_zip hmem
  rw [List.cons_append, hsplit]
  exact ((List.nil_sublist after).cons_cons b.endField |>.cons_cons b.startField).trans (List.sublist_append_right before _)

theorem Passed.marks_sublist (h : Passed r t stop isMarker inner marks bs) : marks.Sublist inner := by
  induction h with
  | nil => exact .refl []
  | mark _ _ _ ih => exact ih.cons_cons _
  | lone _ _ _ _ ih => exact ih.cons _
  | block _ _ _ _ _ _ _ _ ih =>
    rw [List.cons_append]
    exact ((ih.cons _).trans (List.sublist_append_right _ _)).cons _

/-- The boundary fields of a group stand in the order of the scan. -/
theorem Passed.group_sublist (h : Passed r t stop isMarker inner marks bs) (f e : Field) (rest : List Field) :
    (f :: marks ++ [e]).Sublist (f :: inner ++ e :: rest) := by
  rw [List.cons_append, List.cons_append]
  exact (h.marks_sublist.append ((List.nil_sublist rest).cons_cons e)).cons_cons f

theorem Passed.ends_sublist (h : Passed r t stop isMarker inner marks bs) {b : Block} (hb : b ∈ bs) :
    [b.startField, b.endField].Sublist inner := by
  induction h with
  | nil => cases hb
  | mark _ _ _ ih => exact (ih hb).cons _
  | lone _ _ _ _ ih => exact (ih hb).cons _
  | @block stop stop' isMarker isMarker' f e inner inner' marks marks' s bs bs' _ _ _ hin _ hclose _ ih' ih =>
    simp only [List.mem_append] at hb
    rcases hb with (hb | hb) | hb
    · exact ((ih' hb).cons f).trans (List.sublist_append_left (f :: inner') (e :: inner))
    · exact (hclose.ends_sublist hb).trans (hin.group_sublist f e inner)
    · exact ((ih hb).cons e).trans (List.sublist_append_right (f :: inner') (e :: inner))

theorem Built.ends_sublist (h : Built r t fields ss bs) {b : Block} (hb : b ∈ bs) :
    [b.startField, b.endField].Sublist fields := by
  induction h with
  | nil => cases hb
  | skip _ _ ih => exact (ih hb).cons _
  | insertion _ _ ih => exact (ih hb).cons _
  | @block f e stop isMarker inner marks rest s ss bs bs' _ hin _ hclose _ ih =>
    simp only [List.mem_append] at hb
    rcases hb with (hb | hb) | hb
    · exact ((hin.ends_sublist hb).cons f).trans (List.sublist_append_left (f :: inner) (e :: rest))
    · exact (hclose.ends_sublist hb).trans (hin.group_sublist f e rest)
    · exact ((ih hb).cons e).trans (List.sublist_append_right (f :: inner) (e :: rest))

/-! ## References -/

/-- Looking for the end of a block adds the references of the blocks resolved on the way. -/
theorem Passed.takeUntil_eq (h : Passed r t stop isMarker inner marks bs) {e : Field} (he : e.expression = stop) (start : Field)
    (l : Ledger) (after : List Field) : ∃ l' rest, takeUntil r t start stop isMarker l (inner ++ e :: after) = .ok (marks, e, l', rest) ∧
      rest.1 = after ∧ ∀ m, l'.fields.count m = l.fields.count m + (bs.flatMap Block.marks).count m := by
  induction h generalizing start l after e with
  | @nil stop isMarker =>
    have hfound : ∃ more, takeUntil r t start stop isMarker l (e :: after) = .ok ([], e, l, more) ∧ more.1 = after :=
      takeUntil_cons.mpr (Or.inl ⟨he, rfl, rfl, rfl, rfl⟩)
    obtain ⟨more, hmore, hafter⟩ := hfound
    exact ⟨l, more, hmore, hafter, fun m => rfl⟩
  | @mark stop isMarker f inner marks bs hs hm _ ih =>
    obtain ⟨l', rest, hrec, hrest, hcount⟩ := ih he start l after
    obtain ⟨more, hmore, hafter⟩ := takeUntil_cons.mpr (Or.inr (Or.inl ⟨hs, hm, marks, rest, rfl, hrec, hrest⟩))
    exact ⟨l', more, hmore, hafter, hcount⟩
  | @lone stop isMarker f inner marks bs hs hm hc _ ih =>
    obtain ⟨l', rest, hrec, hrest, hcount⟩ := ih he start l after
    have hf : takeField r t true false l f (inner ++ e :: after) = _ := takeField_nested_of_none _ hc
    obtain ⟨more, hmore, hafter⟩ := takeUntil_cons.mpr (Or.inr (Or.inr ⟨hs, hm, none, l, _, rest, hf, hrec, hrest⟩))
    exact ⟨l', more, hmore, hafter, hcount⟩
  | @block stop stop' isMarker isMarker' f e' inner inner' marks marks' s bs bs' hs hm hc _ he' hclose _ ih' ih =>
    obtain ⟨l₁, left, hleft, hl, hcount₁⟩ := ih' he' f l (inner ++ e :: after)
    have hf : takeField r t true false l f _ = .ok (some s, s.blocks.foldl (Ledger.enter t true) l₁, left) :=
      (takeField_eq_ok hc).mpr ⟨_, _, _, _, hleft, hclose, rfl, rfl⟩
    obtain ⟨l', rest, hrec, hrest, hcount⟩ := ih he start (s.blocks.foldl (Ledger.enter t true) l₁) after
    have hmore : ∃ more, takeUntil r t start stop isMarker (s.blocks.foldl (Ledger.enter t true) l₁) left.1 =
        .ok (marks, e, l', more) ∧ more.1 = after := by
      rw [hl]
      exact ⟨rest, hrec, hrest⟩
    obtain ⟨more, hmore, hafter⟩ := hmore
    have hsplit : f :: inner' ++ e' :: inner ++ e :: after = f :: (inner' ++ e' :: (inner ++ e :: after)) := by simp
    rw [hsplit]
    obtain ⟨more, hmore, hafter⟩ := takeUntil_cons.mpr (Or.inr (Or.inr ⟨hs, hm, _, _, left, more, hf, hmore, hafter⟩))
    refine ⟨l', more, hmore, hafter, fun m => ?_⟩
    rw [hcount, Ledger.count_foldl_enter, hcount₁, List.flatMap_append, List.flatMap_append, List.count_append, List.count_append]
    omega

theorem Built.takeAll_eq (h : Built r t fields ss bs) (l : Ledger) : ∃ l', takeAll r t l fields = .ok (ss, l') ∧
    ∀ m, l'.fields.count m = l.fields.count m + (bs.flatMap Block.marks).count m := by
  induction h generalizing l with
  | nil => exact ⟨l, by rw [takeAll], fun m => rfl⟩
  | @skip f rest ss bs hd _ ih =>
    obtain ⟨l', hl, hcount⟩ := ih l
    have hc : closing? r f = none := by rw [closing?, hd]; rfl
    exact ⟨l', takeAll_cons.mpr ⟨none, l, _, ss, (takeField_top_of_none hc).mpr ⟨rfl, rfl, Or.inl ⟨rfl, hd⟩⟩, hl, rfl⟩, hcount⟩
  | @insertion f o rest ss bs ho _ ih =>
    obtain ⟨l', hl, hcount⟩ := ih l
    have hf : takeField r t false true l f rest = .ok (some (.insertion f o), l, ⟨rest, Nat.le_refl _⟩) :=
      (takeField_top_of_none (closing?_of_inserts ho)).mpr ⟨rfl, rfl, Or.inr ⟨o, ho, rfl⟩⟩
    exact ⟨l', takeAll_cons.mpr ⟨_, l, _, ss, hf, hl, rfl⟩, hcount⟩
  | @block f e stop isMarker inner marks rest s ss bs bs' hc hin he hclose _ ih =>
    obtain ⟨l₁, left, hleft, hl, hcount₁⟩ := hin.takeUntil_eq he f l rest
    have hf : takeField r t false true l f _ = .ok (some s, s.blocks.foldl (Ledger.enter t false) l₁, left) :=
      (takeField_eq_ok hc).mpr ⟨_, _, _, _, hleft, hclose, rfl, rfl⟩
    obtain ⟨l', hrec, hcount⟩ := ih (s.blocks.foldl (Ledger.enter t false) l₁)
    rw [← hl] at hrec
    refine ⟨l', takeAll_cons.mpr ⟨_, _, left, ss, hf, hrec, rfl⟩, fun m => ?_⟩
    rw [hcount, Ledger.count_foldl_enter, hcount₁, List.flatMap_append, List.flatMap_append, List.count_append, List.count_append]
    omega

end Outline

/-- A block has a field among its two boundaries once at most. -/
theorem Block.count_marks {fields : List Field} (hnd : (fields.map Field.marker).Nodup) {f : Field} (hf : f ∈ fields)
    {bs : List Block} (hbs : ∀ b ∈ bs, [b.startField, b.endField].Sublist fields) :
    (bs.flatMap marks).count f.marker = bs.countP fun b => b.startField = f ∨ b.endField = f := by
  have hsame : ∀ g ∈ fields, (g.marker = f.marker ↔ g = f) := fun g hg => ⟨List.inj_on_of_nodup_map hnd hg hf, fun he => he ▸ rfl⟩
  induction bs with
  | nil => rfl
  | cons b bs ih =>
    have hb := hbs b List.mem_cons_self
    have hstart := hsame b.startField (hb.subset List.mem_cons_self)
    have hstop := hsame b.endField (hb.subset (List.mem_cons_of_mem _ List.mem_cons_self))
    have hne : b.startField ≠ b.endField := fun he => by
      have hsub := hnd.of_map.sublist hb
      rw [he] at hsub
      simp at hsub
    rw [List.flatMap_cons, List.count_append, ih fun b' hb' => hbs b' (List.mem_cons_of_mem b hb'), List.countP_cons, marks,
      List.count_cons, List.count_singleton]
    simp only [beq_iff_eq, hstart, hstop, decide_eq_true_eq]
    by_cases hs : b.startField = f
    · have he : ¬ b.endField = f := fun he => hne (hs.trans he.symm)
      simp only [hs, he, if_true, if_false, or_false]
      omega
    · by_cases he : b.endField = f <;> simp only [hs, he, if_true, if_false, or_true, or_false] <;> omega

/-- A field has a reference for each block that it bounds, of all that the build resolves. -/
theorem Outline.fieldCount_of_built {r : Registry} {t : Tree} (ht : t.WellFormed) {id : NodeId} {ss : List Statement} {l : Ledger}
    (h : ofFields r t (t.fields id) = .ok (ss, l)) {bs : List Block} (hbs : Built r t (t.fields id) ss bs) {f : Field}
    (hf : f ∈ t.fields id) : l.fieldCount f = bs.countP fun b => b.startField = f ∨ b.endField = f := by
  obtain ⟨l', hl, hcount⟩ := hbs.takeAll_eq Ledger.empty
  have he : l' = l := (Prod.mk.inj (Except.ok.inj (hl.symm.trans h))).2
  rw [← Block.count_marks (ht.nodup_markers id) hf fun b hb => hbs.ends_sublist hb, Ledger.fieldCount, ← he, hcount]
  exact Nat.zero_add _

end MailMerge
