/-
  MailMerge.Proofs.Merge.Items — the items of a loop do not see each other.

  A loop expands one block for each of its items, in one store and one environment. What is made
  for an item is behind the nodes that were there before, which stay as they were; so the store
  that the next item finds holds the tree from before the loop, and a merge in it goes as in that
  tree (`Beyond.renumbered`, `even_below`). The scope of an item is taken off again, and where all
  images bring their ids nothing else is left of it in the environment.

  What is made has other numbers in the loop than alone. It is compared as it is written
  (`Merge.written`).

  Proved: what a loop makes of its items is, one behind the other, what each of them makes alone
  (`written_iterate`), up to the first item that fails.
-/

import MailMerge.Proofs.Merge.Parts
import MailMerge.Proofs.Merge.Renumbered
import MailMerge.Proofs.Merge.Scratch
import MailMerge.Proofs.Traversal

namespace MailMerge

open MailMerge.Merge MailMerge.Tree

/-- What a step has made, as it is written where the step has left it. -/
def Merge.written (done : Except Failure (List NodeId) × Session) : Except Failure (List String) :=
  done.1.map fun content => content.map done.2.tree.subtreeToMarkup

/-- What the block comes to for one item: it is expanded with the iterator bound to the item. -/
def Block.alone (expand : NodeId → Merge Unit) (iterator : String) (b : Block) (s : Session) (item : Value) :
    Except Failure (List String) :=
  written (b.expandBody expand { s with env := s.env.push (Scope.binding iterator item) })

/-! ## One item -/

/-- Runs that do the same write the same. -/
theorem Merge.Renumbered.written {ρ : NodeId → NodeId} {done done' : Except Failure (List NodeId) × Session}
    (h : Renumbered ρ (List.map ρ) done done') (hw : done.2.tree.WellFormed) : written done' = written done := by
  have hone : done'.2.tree.subtreeToMarkup ∘ ρ = done.2.tree.subtreeToMarkup := funext (h.session.tree.subtreeToMarkup hw)
  unfold Merge.written
  rw [h.result]
  cases done.1 with
  | error e => rfl
  | ok content =>
    show Except.ok ((content.map ρ).map done'.2.tree.subtreeToMarkup) = _
    rw [List.map_map, hone]
    rfl

/-- A merge below a node has a ledger of its own, and keeps the one it finds. -/
theorem Merge.run_below_ledger (r : Registry) (n : Nat) (id : NodeId) (s : Session) (l : Ledger) :
    below r n id { s with ledger := l } = ((below r n id s).1, { (below r n id s).2 with ledger := l }) := by
  cases n with
  | zero => rfl
  | succ n =>
    rw [run_below_succ, run_below_succ]
    cases Outline.ofFields r s.tree (s.tree.fields id) <;> rfl

theorem Block.written_expandBody_ledger (r : Registry) (n : Nat) (b : Block) (s : Session) (l : Ledger) :
    written (b.expandBody (below r n) { s with ledger := l }) = written (b.expandBody (below r n) s) := by
  have hrun := run_below_ledger r n (copyNodes s.tree b.body).1 { s with tree := (copyNodes s.tree b.body).2 } l
  rw [run_expandBody, run_expandBody]
  simp only at hrun ⊢
  rw [hrun]
  generalize below r n (copyNodes s.tree b.body).1 { s with tree := (copyNodes s.tree b.body).2 } = merged
  obtain ⟨result, s'⟩ := merged
  cases result <;> rfl

section items

variable {r : Registry} {n : Nat} {iterator : String} {b : Block} {s s₁ : Session} (h : s.tree.WellFormed)
  (hb : ∀ x ∈ b.body, x ≠ root ∧ x < s.tree.size) (hgrown : Beyond s.tree.size s.tree s₁.tree) (henv : s₁.env = s.env)

include h hb hgrown henv

/-- An item comes to the same wherever the tree from before the loop is held. -/
theorem Block.alone_grown (item : Value) : b.alone (below r n) iterator s₁ item = b.alone (below r n) iterator s item := by
  have hbody : (b.renumber (movedOn s.tree.size (s₁.tree.size - s.tree.size))).body = b.body := map_movedOn fun x hx => (hb x hx).2
  have hsame : (b.renumber (movedOn s.tree.size (s₁.tree.size - s.tree.size))).expandBody (below r n) = b.expandBody (below r n) := by
    unfold expandBody
    rw [hbody]
  -- the ledgers do not matter, and empty ones have no numbers
  have hstart : Session.Renumbered (movedOn s.tree.size (s₁.tree.size - s.tree.size))
      ⟨s.tree, s.env.push (Scope.binding iterator item), .empty⟩ ⟨s₁.tree, s₁.env.push (Scope.binding iterator item), .empty⟩ :=
    ⟨hgrown.renumbered h, congrArg (Environment.push · _) henv, rfl⟩
  have heven := renumbered_expandBody (even_below r n) hstart h hb
  have hed := (expandBody_spec (expands_below r n) (s := ⟨s.tree, s.env.push (Scope.binding iterator item), .empty⟩) h hb).1
  have hwritten := heven.written hed.tree.wellFormed
  rw [hsame] at hwritten
  unfold alone
  rw [← written_expandBody_ledger r n b { s₁ with env := s₁.env.push (Scope.binding iterator item) } .empty,
    ← written_expandBody_ledger r n b { s with env := s.env.push (Scope.binding iterator item) } .empty]
  exact hwritten

/-! ## Items in turn -/

/-- **What a loop writes is what each of its items writes alone**, one behind the other, or the
    failure of the first that fails. -/
theorem Statement.written_iterate (hid : s.env.Identified) {items : List Value}
    (hitems : ∀ item ∈ items, item.reaches Content.needsId = false) :
    written (iterate (below r n) iterator b items s₁) = (items.mapM (b.alone (below r n) iterator s)).map List.flatten := by
  induction items generalizing s₁ with
  | nil => rfl
  | cons item items ih =>
    have hsize : s.tree.size ≤ s₁.tree.size := hgrown.grows
    have hb₁ : ∀ x ∈ b.body, x ≠ root ∧ x < s₁.tree.size := fun x hx => ⟨(hb x hx).1, Nat.lt_of_lt_of_le (hb x hx).2 hsize⟩
    have hone : written (underScope (Scope.binding iterator item) (b.expandBody (below r n)) s₁) =
        b.alone (below r n) iterator s item := Block.alone_grown h hb hgrown henv item
    obtain ⟨hed, hfresh⟩ := underScope_spec (expands_below r n) hgrown.wellFormed hb₁ (Scope.binding iterator item)
    have hsteady : Steady _ (underScope (Scope.binding iterator item) (b.expandBody (below r n))) :=
      (Block.steady_expandBody (steady_below r n) b).underScope (hitems item List.mem_cons_self)
    have hkept := (hsteady s₁ (henv ▸ hid)).1
    rw [run_iterate_cons, List.mapM_cons, ← hone]
    generalize underScope (Scope.binding iterator item) (b.expandBody (below r n)) s₁ = first at hed hfresh hkept ⊢
    obtain ⟨result, s₂⟩ := first
    cases result with
    | error e => rfl
    | ok content =>
      have hbeyond : Beyond s.tree.size s.tree s₂.tree := hgrown.trans (hed.tree.of_le hgrown.zone hsize)
      have hrest := ih hbeyond (hkept.trans henv) fun v hv => hitems v (List.mem_cons_of_mem item hv)
      obtain ⟨hed₂, -⟩ := iterate_spec (expands_below r n) iterator items hed.tree.wellFormed fun x hx =>
        ⟨(hb₁ x hx).1, Nat.lt_of_lt_of_le (hb₁ x hx).2 hed.tree.grows⟩
      simp only
      generalize iterate (below r n) iterator b items s₂ = rest at hrest hed₂ ⊢
      obtain ⟨result, s₃⟩ := rest
      -- what was made for the item is written as before when the others are through
      have hkeep : content.map s₃.tree.subtreeToMarkup = content.map s₂.tree.subtreeToMarkup :=
        List.map_congr_left fun c hc => hed₂.tree.subtreeToMarkup_eq hed.tree.wellFormed (hfresh content rfl c hc).2.1
      cases hmore : items.mapM (b.alone (below r n) iterator s) with
      | error e =>
        rw [hmore] at hrest
        cases result with
        | error e' =>
          cases hrest
          rfl
        | ok more => cases hrest
      | ok parts =>
        rw [hmore] at hrest
        cases result with
        | error e' => cases hrest
        | ok more =>
          have hflat : more.map s₃.tree.subtreeToMarkup = parts.flatten := Except.ok.inj hrest
          refine congrArg Except.ok ?_
          show (content ++ more).map s₃.tree.subtreeToMarkup = content.map s₂.tree.subtreeToMarkup ++ parts.flatten
          rw [List.map_append, hkeep, hflat]

end items

/-! ## Loops -/

/-- A loop of a scan makes of its items what each of them makes alone, on the tree from before the
    loop and with the iterator bound to it, one behind the other. So what it makes of some items
    and then of others is what it makes of the former and then of the latter, and it fails as the
    first of its items that fails. This is for items whose images bring their ids, as those that
    its list comes to do; what is made of them takes the place of its block. -/
theorem Statement.iterations_independent {r : Registry} {t : Tree} (ht : t.WellFormed) {id : NodeId} {ss : List Statement} {l : Ledger}
    (hbuild : Outline.ofFields r t (t.fields id) = .ok (ss, l)) {list : Operand} {iterator : String} {b : Block}
    (hst : Statement.loop list iterator b ∈ ss) {s : Session} (hs : s.tree.WellFormed) (hgrown : t.size ≤ s.tree.size)
    (henv : s.env.Identified) (n : Nat) {items : List Value} (hitems : ∀ item ∈ items, item.reaches Content.needsId = false) :
    written (iterate (below r n) iterator b items s) = (items.mapM (b.alone (below r n) iterator s)).map List.flatten ∧
      (∀ content made, iterate (below r n) iterator b items s = (.ok content, made) → ∃ parts,
        List.Forall₂ (fun item part => b.alone (below r n) iterator s item = .ok part) items parts ∧
          content.map made.tree.subtreeToMarkup = parts.flatten) ∧
      (∀ xs ys, items = xs ++ ys → written (iterate (below r n) iterator b items s) = (do
        let first ← written (iterate (below r n) iterator b xs s)
        let more ← written (iterate (below r n) iterator b ys s)
        pure (first ++ more))) ∧
      (∀ before item after e, items = before ++ item :: after → (∀ x ∈ before, ∃ part, b.alone (below r n) iterator s x = .ok part) →
        b.alone (below r n) iterator s item = .error e → (iterate (below r n) iterator b items s).1 = .error e) ∧
      (∀ listed, list.evaluateItems s.env = .ok listed → (∀ item ∈ listed, item.reaches Content.needsId = false) ∧
        (loop list iterator b).evaluate (below r n) s = (iterate (below r n) iterator b listed >>= b.giveWay) s) := by
  have hb : ∀ x ∈ b.body, x ≠ root ∧ x < s.tree.size := fun x hx => by
    have hx := Block.inStore_of_resolve? ht ((Outline.outlined_of_takeAll hbuild).resolves hst List.mem_cons_self) x hx
    exact ⟨hx.1, Nat.lt_of_lt_of_le hx.2 hgrown⟩
  have hall : ∀ {items : List Value}, (∀ item ∈ items, item.reaches Content.needsId = false) →
      written (iterate (below r n) iterator b items s) = (items.mapM (b.alone (below r n) iterator s)).map List.flatten :=
    written_iterate hs hb (.refl (fenced_size hs)) rfl henv
  refine ⟨hall hitems, fun content made hrun => ?_, ?_, ?_, fun listed hlist => ⟨Environment.reaches_evaluateItems henv hlist, ?_⟩⟩
  · have hwritten := hall hitems
    rw [hrun] at hwritten
    cases hparts : items.mapM (b.alone (below r n) iterator s) with
    | error e => rw [hparts] at hwritten; cases hwritten
    | ok parts =>
      rw [hparts] at hwritten
      exact ⟨parts, forall₂_of_mapM_eq_ok hparts, Except.ok.inj hwritten⟩
  · rintro xs ys rfl
    rw [hall hitems, hall fun x hx => hitems x (List.mem_append_left ys hx), hall fun x hx => hitems x (List.mem_append_right xs hx),
      flatten_mapM_append]
  · rintro before item after e rfl hbefore he
    have hwritten := hall hitems
    rw [mapM_eq_error hbefore he after] at hwritten
    generalize iterate (below r n) iterator b (before ++ item :: after) s = done at hwritten ⊢
    obtain ⟨result, made⟩ := done
    cases result with
    | error e' => exact congrArg Except.error (Except.error.inj hwritten)
    | ok content => cases hwritten
  · rw [evaluate, run_bind_ok (run_askOperand_ok hlist _)]

namespace LettersLoop

def field (directive : String) (parent : NodeId) (span : Span) : Node :=
  ⟨.element Word.simpleField [(Word.fieldInstruction, "MERGEFIELD " ++ directive)], some parent, [], span⟩

/-- A paragraph that is repeated for each letter. -/
def tree : Tree := ⟨#[⟨.container, none, [1, 3, 5], .none⟩,
  ⟨.element Word.paragraph [], some Tree.root, [2], ⟨0, 60⟩⟩, field "ls:each(l)" 1 ⟨5, 54⟩,
  ⟨.element Word.paragraph [], some Tree.root, [4], ⟨60, 110⟩⟩, field "=l" 3 ⟨65, 104⟩,
  ⟨.element Word.paragraph [], some Tree.root, [6], ⟨110, 170⟩⟩, field "ls:endEach" 5 ⟨115, 164⟩]⟩

def start : Field := ⟨2, "ls:each(l)", 2, [], .simple, true, ⟨5, 54⟩⟩

def stop : Field := ⟨6, "ls:endEach", 6, [], .simple, true, ⟨115, 164⟩⟩

def block : Block := ⟨.paragraph, start, stop, 1, 5, [3]⟩

def session : Session := ⟨tree, ⟨[("ls", .list [.string "A", .string "B"])], [], .lenient, .empty⟩, .empty⟩

end LettersLoop

open LettersLoop in
/-- Two letters make two paragraphs, each as it is made alone. -/
theorem Statement.letters_independent : tree.WellFormed ∧
    Outline.ofFields Registry.stock tree (tree.fields Tree.root) = .ok ([.loop ⟨"ls", []⟩ "l" block], ⟨[6, 2], [5, 1], []⟩) ∧
    session.env.Identified ∧
    block.alone (below Registry.stock 1) "l" session (.string "A") = .ok ["<w:p><w:r><w:t>A</w:t></w:r></w:p>"] ∧
    block.alone (below Registry.stock 1) "l" session (.string "B") = .ok ["<w:p><w:r><w:t>B</w:t></w:r></w:p>"] ∧
    written (iterate (below Registry.stock 1) "l" block [.string "A", .string "B"] session) =
      .ok ["<w:p><w:r><w:t>A</w:t></w:r></w:p>", "<w:p><w:r><w:t>B</w:t></w:r></w:p>"] := by
  have ht : tree.WellFormed := wellFormed_of_earlier (by decide) (by decide) (by decide)
  have hbuild : Outline.ofFields Registry.stock tree (tree.fields Tree.root) =
      .ok ([.loop ⟨"ls", []⟩ "l" block], ⟨[6, 2], [5, 1], []⟩) := by cbv
  have henv : session.env.Identified := by
    unfold Environment.Identified
    decide
  have hfirst : block.alone (below Registry.stock 1) "l" session (.string "A") = .ok ["<w:p><w:r><w:t>A</w:t></w:r></w:p>"] := by cbv
  have hsecond : block.alone (below Registry.stock 1) "l" session (.string "B") = .ok ["<w:p><w:r><w:t>B</w:t></w:r></w:p>"] := by cbv
  have hletters : ∀ item ∈ [Value.string "A", .string "B"], item.reaches Content.needsId = false := by decide
  obtain ⟨hall, -⟩ := iterations_independent ht hbuild List.mem_cons_self (s := session) ht (Nat.le_refl _) henv 1 hletters
  refine ⟨ht, hbuild, henv, hfirst, hsecond, hall.trans ?_⟩
  rw [List.mapM_cons, hfirst, List.mapM_cons, hsecond]
  rfl

end MailMerge
