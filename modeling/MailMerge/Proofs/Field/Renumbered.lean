/-
  MailMerge.Proofs.Field.Renumbered — the fields of a tree in the store of another.

  A scan reads kinds, links and spans. So where a tree is held under other numbers the same
  fields are found, in the same order, with the numbers that their nodes have there.

  Proved: that (`Renumbered.fields`), and what is looked up from a field, one lemma for each.
-/

import MailMerge.Proofs.Field.Renamed
import MailMerge.Proofs.Tree.Renumbered

namespace MailMerge

open MailMerge.Tree

/-- The field where its nodes have other numbers. -/
def Field.renumber (ρ : NodeId → NodeId) (f : Field) : Field :=
  { f with marker := ρ f.marker, first := ρ f.first, others := f.others.map ρ }

namespace Field

variable {ρ : NodeId → NodeId}

theorem anchors_renumber (f : Field) : (f.renumber ρ).anchors = f.anchors.map ρ := rfl

theorem last_renumber (f : Field) : (f.renumber ρ).last = ρ f.last := f.last_renamed ρ .empty

end Field

namespace Tree.Renumbered

variable {ρ : NodeId → NodeId} {t u : Tree} (h : Renumbered ρ t u)

include h

theorem remove (f : Field) : Renumbered ρ (f.remove t) ((f.renumber ρ).remove u) := h.detachAll f.anchors

theorem ofInstruction (m : NodeId) (instruction : String) (first : NodeId) (others : List NodeId) (shape : Shape) (whole : Bool) :
    Field.ofInstruction u (ρ m) instruction (ρ first) (others.map ρ) shape whole =
      (Field.ofInstruction t m instruction first others shape whole).renumber ρ := by
  have hlast : (others.map ρ).getLastD (ρ first) = ρ (others.getLastD first) :=
    Field.last_renumber ⟨m, instruction, first, others, shape, whole, .none⟩
  unfold Field.ofInstruction
  rw [hlast, h.span, h.span]
  cases Instruction.directive? instruction <;> rfl

theorem simple? (x : NodeId) : Field.simple? u (ρ x) = (Field.simple? t x).map (Field.renumber ρ) := by
  rw [Field.simple?, Field.simple?, h.attribute?, Option.map_map]
  exact congrArg (Option.map · _) (funext fun instruction => h.ofInstruction x instruction x [] .simple true)

variable (ht : t.WellFormed)

include ht

theorem ancestor? (f : Field) (name : String) : (f.renumber ρ).ancestor? u name = (f.ancestor? t name).map ρ :=
  h.findAncestor? ht f.first name

theorem resultAnchor? (f : Field) : (f.renumber ρ).resultAnchor? u = (f.resultAnchor? t).map ρ := by
  have hbefore : (fun x => !u.holdsMarker .separator x) ∘ ρ = fun x => !t.holdsMarker .separator x :=
    funext fun x => congrArg (!·) (congrFun (h.holdsMarker_comp ht .separator) x)
  have hkept : (fun x => !(x == ρ f.last && u.holdsMarker .closing x)) ∘ ρ = fun x => !(x == f.last && t.holdsMarker .closing x) := by
    funext x
    have hmarker : u.holdsMarker .closing (ρ x) = t.holdsMarker .closing x := congrFun (h.holdsMarker_comp ht .closing) x
    have hlast : (ρ x == ρ f.last) = (x == f.last) := by rw [Bool.eq_iff_iff, beq_iff_eq, beq_iff_eq, h.eq_iff]
    show (!(ρ x == ρ f.last && u.holdsMarker .closing (ρ x))) = _
    rw [hmarker, hlast]
  unfold Field.resultAnchor?
  simp only [Field.anchors_renumber, Field.last_renumber]
  rw [List.dropWhile_map, hbefore, ← List.map_drop, List.head?_map, Option.filter_map, hkept]

theorem display? (f : Field) : (f.renumber ρ).display? u = (f.display? t).map ρ := by
  have hshape : (f.renumber ρ).shape = f.shape := rfl
  unfold Field.display?
  rw [hshape]
  cases f.shape with
  | simple => rfl
  | complex => exact h.resultAnchor? ht f

/-! ## Scans -/

theorem instructionText (ids : List NodeId) : Field.instructionText u (ids.map ρ) = Field.instructionText t ids := by
  rw [Field.instructionText, Field.instructionText, h.subtrees ht, List.filter_map, h.isNamed_comp, List.map_map]
  exact congrArg String.join (List.map_congr_left fun x _ => h.textContent ht x)

theorem complex? (m : NodeId) : Field.complex? u (ρ m) = (Field.complex? t m).map (Field.renumber ρ) := by
  unfold Field.complex?
  rw [h.parent]
  cases t.parent m with
  | none => rfl
  | some first =>
    have htaken : takeThrough? (u.holdsMarker .closing) (ρ first :: u.laterElements (ρ first)) =
        (takeThrough? (t.holdsMarker .closing) (first :: t.laterElements first)).map (List.map ρ) := by
      rw [h.laterElements, ← List.map_cons]
      exact takeThrough?_map fun x _ => congrFun (h.holdsMarker_comp ht .closing) x
    simp only [Option.map_some, Option.bind_eq_bind, Option.bind_some, htaken]
    cases takeThrough? (t.holdsMarker .closing) (first :: t.laterElements first) with
    | none => rfl
    | some anchors =>
      simp only [Option.map_some, Option.bind_some]
      rw [h.instructionText ht, List.any_map, h.holdsMarker_comp ht, ← List.map_drop, h.ofInstruction]

theorem ofMarker? (m : NodeId) : Field.ofMarker? u (ρ m) = (Field.ofMarker? t m).map (Field.renumber ρ) := by
  have hopening : u.isMarker .opening (ρ m) = t.isMarker .opening m := congrFun (h.isMarker_comp .opening) m
  rw [Field.ofMarker?, Field.ofMarker?, h.isNamed, hopening, h.simple?, h.complex? ht]
  split
  · rfl
  · split <;> rfl

/-- The scan finds the same fields. -/
theorem fields (id : NodeId) : u.fields (ρ id) = (t.fields id).map (Field.renumber ρ) := by
  rw [Tree.fields, Tree.fields, h.descendants ht, List.filterMap_map]
  have hone : Field.ofMarker? u ∘ ρ = fun m => (Field.ofMarker? t m).map (Field.renumber ρ) := funext (h.ofMarker? ht)
  rw [hone, ← List.map_filterMap, List.filter_map]
  rfl

end Tree.Renumbered

end MailMerge
