/-
  MailMerge.Proofs.Tree.Walked — the walk down with a stack, and the recursion it stands for.

  The walk below a node keeps a stack whose last entry is visited next. At first the children
  of the node are on it, the first child on top; a node that is visited leaves the stack and
  its children come in its place, in the same order (`Visit`). How often that can be done is
  not bounded beforehand. The writer goes down by recursion instead: it puts out the text of
  a node in two strokes, and between them those of the children (`strokes`). Children of
  nodes that are no elements are visited, but not written.

  Proved: in a linked tree the walk ends, and visits what the recursion over child lists meets,
  in that order (`Linked.ends`); so does the writer (`strokes_begun`). What is found first,
  the text of a node and whether a node is attached follow from the order of the walk
  (`descendants_in_order`).
-/

import MailMerge.Markup.Writer
import MailMerge.Proofs.Tree.Lists

namespace MailMerge

namespace Tree

/-! ## Nodes above, whatever the nodes are -/

section bare

variable (t : Tree)

theorem climb_bare (n : Nat) (next : Option NodeId) : t.bare.climb n next = t.climb n next := by
  induction n generalizing next with
  | zero => cases next <;> rfl
  | succ n ih =>
    cases next with
    | none => rfl
    | some a => rw [climb, climb, parent_bare, ih]

@[simp] theorem ancestors_bare (a : NodeId) : t.bare.ancestors a = t.ancestors a := by
  rw [ancestors, ancestors, climb_bare, size_bare, parent_bare]

@[simp] theorem isAttached_bare (a : NodeId) : t.bare.isAttached a = t.isAttached a := by
  rw [isAttached, isAttached, ancestors_bare]

@[simp] theorem descendants_bare (a : NodeId) : t.bare.descendants a = t.descendants a :=
  List.cons.inj (subtree_bare t a) |>.2

theorem preorder_bare (n : Nat) (a : NodeId) : t.bare.preorder n a = t.preorder n a := by
  induction n generalizing a with
  | zero => rfl
  | succ n ih => rw [preorder, preorder, children_bare, funext ih]

end bare

namespace Linked

variable {t : Tree} (h : t.Linked)

include h

theorem mem_ancestors {a d : NodeId} : a ∈ t.ancestors d ↔ t.Within a d ∧ a ≠ d := by
  rw [← ancestors_bare, h.bare.mem_ancestors, within_bare]

theorem mem_descendants {a d : NodeId} : d ∈ t.descendants a ↔ t.Within a d ∧ d ≠ a := by
  rw [← descendants_bare, h.bare.mem_descendants, within_bare]

theorem isAttached_iff {id : NodeId} : t.isAttached id = true ↔ t.Within root id := by
  rw [← isAttached_bare, h.bare.isAttached_iff, within_bare]

/-- As many levels as there are nodes are all there are. -/
theorem preorder_eq {depth : Nat} (hdepth : t.size ≤ depth) (a : NodeId) : t.preorder depth a = t.subtree a := by
  have hcard : (t.bare.below a).card ≤ depth + 1 :=
    Nat.le_succ_of_le (Nat.le_trans (t.bare.card_below_le a) (by rwa [size_bare]))
  rw [← preorder_bare, h.bare.preorder_enough depth hcard, subtree_bare]

/-- Going down from a node meets just those that it is met from when going up, each once. -/
theorem count_descendants (x d : NodeId) : (t.descendants x).count d = if x ∈ t.ancestors d then 1 else 0 := by
  have hnodup : (t.descendants x).Nodup := (List.nodup_cons.mp (h.nodup_subtree x)).2
  have hmem : d ∈ t.descendants x ↔ x ∈ t.ancestors d := by
    rw [h.mem_descendants, h.mem_ancestors, ne_comm]
  rw [hnodup.count, if_congr hmem rfl rfl]

end Linked

/-! ## The walk with its stack -/

/-- A walk under way: the nodes to be visited, the next one last, and those visited. -/
structure Visit where
  stack : List NodeId
  visited : List NodeId

namespace Visit

/-- The start of the walk below a node. -/
def below (t : Tree) (id : NodeId) : Visit := ⟨(t.children id).reverse, []⟩

/-- Visits the node on top of the stack; its children take its place. -/
def next? (t : Tree) (v : Visit) : Option Visit :=
  v.stack.getLast?.map fun id => ⟨v.stack.dropLast ++ (t.children id).reverse, v.visited ++ [id]⟩

/-- The walk comes to its end, and has then visited these nodes. -/
inductive Ends (t : Tree) : Visit → List NodeId → Prop where
  | done {v : Visit} : v.next? t = none → Ends t v v.visited
  | step {v w : Visit} {out : List NodeId} : v.next? t = some w → Ends t w out → Ends t v out

theorem next?_cons (t : Tree) (a : NodeId) (todo visited : List NodeId) :
    next? t ⟨(a :: todo).reverse, visited⟩ = some ⟨(t.children a ++ todo).reverse, visited ++ [a]⟩ := by
  simp [next?]

end Visit

namespace Linked

variable {t : Tree} (h : t.Linked)

include h

/-- Before anything else on the stack the subtree of its top is visited. -/
theorem ends_of_top (a : NodeId) {todo visited out : List NodeId}
    (hrest : Visit.Ends t ⟨todo.reverse, visited ++ t.subtree a⟩ out) : Visit.Ends t ⟨(a :: todo).reverse, visited⟩ out := by
  induction a using h.below_induction generalizing todo visited with
  | step a ih =>
    refine .step (Visit.next?_cons t a todo visited) ?_
    have hchildren : ∀ (cs : List NodeId) (visited : List NodeId), (∀ c ∈ cs, c ∈ t.children a) →
        Visit.Ends t ⟨todo.reverse, visited ++ cs.flatMap t.subtree⟩ out → Visit.Ends t ⟨(cs ++ todo).reverse, visited⟩ out := by
      intro cs
      induction cs with
      | nil => intro visited _ hend; simpa using hend
      | cons c cs ihc =>
        intro visited hcs hend
        refine ih c (hcs c List.mem_cons_self) (ihc _ (fun d hd => hcs d (List.mem_cons_of_mem c hd)) ?_)
        rwa [List.append_assoc, ← List.flatMap_cons]
    refine hchildren (t.children a) _ (fun _ hc => hc) ?_
    rwa [List.append_assoc, List.singleton_append, ← h.subtree_eq]

/-- Whatever is on the stack, the walk visits the subtrees from the top down, and ends. -/
theorem ends (todo visited : List NodeId) : Visit.Ends t ⟨todo.reverse, visited⟩ (visited ++ todo.flatMap t.subtree) := by
  induction todo generalizing visited with
  | nil =>
    rw [List.flatMap_nil, List.append_nil]
    exact .done rfl
  | cons a todo ih =>
    refine h.ends_of_top a ?_
    rw [List.flatMap_cons, ← List.append_assoc]
    exact ih _

end Linked

end Tree

/-! ## The strokes of the writer -/

namespace Kind

/-- Children of such a node are written, between two strokes for the node itself. -/
def nests : Kind → Bool
  | .container | .element _ _ => true
  | _ => false

end Kind

namespace Markup

/-- What is written of a node up to its children. -/
def front (kind : Kind) (childless : Bool) : List Char :=
  match kind with
  | .container => []
  | .element name attributes =>
    '<' :: name.toList ++ attributes.flatMap writeAttribute ++ if childless then ['/', '>'] else ['>']
  | kind => writeNode kind [] true

/-- What is written of a node behind its children. -/
def rear (kind : Kind) (childless : Bool) : List Char :=
  match kind with
  | .element name _ => if childless then [] else '<' :: '/' :: name.toList ++ ['>']
  | _ => []

theorem writeNode_eq (kind : Kind) {content : List Char} {childless : Bool} (hc : childless = true → content = []) :
    writeNode kind content childless =
      front kind childless ++ (if kind.nests = true then content else []) ++ rear kind childless := by
  cases kind with
  | element name attributes =>
    cases childless with
    | false => simp [writeNode, front, rear, Kind.nests]
    | true => simp [writeNode, front, rear, Kind.nests, hc]
  | _ => simp [writeNode, front, rear, Kind.nests]

end Markup

namespace Tree

open Markup

/-- The texts put out one after the other for a node and `depth` levels below it. A stroke
    tells the node that begins with it; a stroke behind the children begins none. -/
def strokes (t : Tree) : (depth : Nat) → NodeId → List (Option NodeId × List Char)
  | 0, id => [(some id, front (t.kind id) true), (none, rear (t.kind id) true)]
  | n + 1, id =>
    let childless := (t.children id).isEmpty
    let inner := if (t.kind id).nests = true then (t.children id).flatMap (strokes t n) else []
    (some id, front (t.kind id) childless) :: inner ++ [(none, rear (t.kind id) childless)]

/-- Nodes in the order in which the writer begins them. -/
def begun (t : Tree) (depth : Nat) (id : NodeId) : List NodeId := (t.strokes depth id).filterMap (·.1)

section strokes

variable (t : Tree)

/-- The strokes are all that is written. -/
theorem flatMap_strokes (n : Nat) (id : NodeId) : (t.strokes n id).flatMap (·.2) = t.write n id := by
  induction n generalizing id with
  | zero => rw [write, writeNode_eq _ fun _ => rfl]; simp [strokes]
  | succ n ih =>
    have hchildless : (t.children id).isEmpty = true → (t.children id).flatMap (t.write n) = [] := fun he => by
      rw [List.isEmpty_iff.mp he, List.flatMap_nil]
    rw [write, writeNode_eq _ hchildless, strokes, ← funext ih]
    cases (t.kind id).nests <;> simp [List.flatMap_assoc]

theorem begun_succ (n : Nat) (id : NodeId) : t.begun (n + 1) id =
    id :: if (t.kind id).nests = true then (t.children id).flatMap (t.begun n) else [] := by
  have hbegun : t.begun n = fun c => (t.strokes n c).filterMap (·.1) := rfl
  rw [begun, strokes, hbegun]
  cases (t.kind id).nests <;> simp [List.filterMap_flatMap]

/-- The writer begins nodes in the order of the recursion, and leaves some out. -/
theorem begun_sublist (n : Nat) (id : NodeId) : (t.begun n id).Sublist (t.preorder n id) := by
  induction n generalizing id with
  | zero => exact .refl _
  | succ n ih =>
    rw [begun_succ, preorder]
    refine .cons_cons id ?_
    split
    · induction t.children id with
      | nil => exact .refl _
      | cons c cs ihc =>
        rw [List.flatMap_cons, List.flatMap_cons]
        exact (ih c).append ihc
    · exact List.nil_sublist _

/-- It leaves none out where only elements and the container have children. -/
theorem strokes_begun {n : Nat} {id : NodeId} (hd : ∀ d ∈ t.preorder n id, t.children d ≠ [] → (t.kind d).nests = true) :
    t.begun n id = t.preorder n id := by
  induction n generalizing id with
  | zero => rfl
  | succ n ih =>
    rw [preorder] at hd
    rw [begun_succ, preorder]
    have hbelow : (t.children id).flatMap (t.begun n) = (t.children id).flatMap (t.preorder n) :=
      List.flatMap_congr fun c hc => ih fun d hdc => hd d (List.mem_cons_of_mem _ (List.mem_flatMap.mpr ⟨c, hc, hdc⟩))
    by_cases hnil : t.children id = []
    · simp [hnil]
    · rw [if_pos (hd id List.mem_cons_self hnil), hbelow]

end strokes

/-! ## One order -/

/-- What the walk below `x` visits, and what follows from its order. -/
structure WalksInOrder (t : Tree) (x : NodeId) : Prop where
  /-- The walk with its stack ends. -/
  ends : (Visit.below t x).Ends t (t.descendants x)
  once : ∀ d, (t.descendants x).count d = if x ∈ t.ancestors d then 1 else 0
  recursion : ∀ depth, t.size ≤ depth → t.preorder depth x = x :: t.descendants x
  written : (t.strokes t.size x).flatMap (·.2) = (t.subtreeToMarkup x).toList ∧
    (t.begun t.size x).Sublist (x :: t.descendants x) ∧
    ((∀ d ∈ x :: t.descendants x, t.children d ≠ [] → (t.kind d).nests = true) → t.begun t.size x = x :: t.descendants x)
  found : ∀ name d, t.findDescendant? x name = some d ↔ ∃ before after, t.preorder t.size x = x :: (before ++ d :: after) ∧
    t.isNamed name d = true ∧ ∀ b ∈ before, t.isNamed name b = false
  text : t.textContent x = String.join ((t.preorder t.size x).map t.ownText)
  attached : ∀ d, t.isAttached d = true ↔ d = root ∨ d ∈ t.descendants root

theorem descendants_in_order {t : Tree} (h : t.Linked) (x : NodeId) : WalksInOrder t x where
  ends := by
    have hends := h.ends (t.children x) []
    rwa [List.nil_append, ← (List.cons.inj (h.subtree_eq x)).2] at hends
  once := h.count_descendants x
  recursion depth hdepth := h.preorder_eq hdepth x
  written := by
    have hall : t.preorder t.size x = x :: t.descendants x := h.preorder_eq (Nat.le_refl _) x
    refine ⟨?_, hall ▸ t.begun_sublist t.size x, fun hd => hall ▸ t.strokes_begun fun d hd' => hd d (hall ▸ hd')⟩
    rw [flatMap_strokes, subtreeToMarkup, String.toList_ofList]
  found name d := by
    rw [findDescendant?, List.find?_eq_some_iff_append, h.preorder_eq (Nat.le_refl _), subtree]
    constructor
    · rintro ⟨hn, before, after, hcut, hno⟩
      exact ⟨before, after, by rw [hcut], hn, fun b hb => by simpa using hno b hb⟩
    · rintro ⟨before, after, hcut, hn, hno⟩
      exact ⟨hn, before, after, (List.cons.inj hcut).2, fun b hb => by simp [hno b hb]⟩
  text := by rw [textContent, h.preorder_eq (Nat.le_refl _)]
  attached d := by
    rw [h.isAttached_iff, h.mem_descendants]
    by_cases hd : d = root
    · simp [hd, within_refl]
    · simp [hd]

open TextInTexts in
/-- The comment below a text is visited last, and not written. -/
theorem nested_texts_walked : tree.Linked ∧ (Visit.below tree root).Ends tree [1, 2, 3, 4, 5] ∧
    (tree.descendants root).count 5 = 1 ∧ (tree.begun tree.size root).Sublist [0, 1, 2, 3, 4, 5] ∧
    tree.begun tree.size root = [0, 1, 2, 3, 4] ∧ tree.findDescendant? root "b" = some 2 ∧ tree.isAttached 5 = true := by
  have hwalk := descendants_in_order linked root
  exact ⟨linked, hwalk.ends, hwalk.once 5, hwalk.written.2.1, by decide,
    (hwalk.found "b" 2).mpr ⟨[1], [3, 4, 5], by decide, by decide, by decide⟩, (hwalk.attached 5).mpr (Or.inr (by decide))⟩

end Tree

end MailMerge
