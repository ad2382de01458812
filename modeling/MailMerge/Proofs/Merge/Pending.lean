/-
  MailMerge.Proofs.Merge.Pending — the bodies that are still to come.

  While the statements of a scan are carried out, the blocks of those still to come keep
  their bodies in the tree, and earlier statements may edit what stands there: an insertion
  may put text in a field that reaches into a later body, and unwraps fields. The order of
  the scan bounds what can happen. The marker of an earlier field stands in no later body,
  so the first boundary of an earlier block stands in none either unless it begins it, and
  what an earlier block expands to is put elsewhere.

  Proved: no earlier field has its marker in a later body
  (`Outlined.not_within_later_body`), and what earlier statements add to later bodies
  carries no field (`Scan.Pending.run`).
-/

import MailMerge.Proofs.Block.Sealed
import MailMerge.Proofs.Merge.Consumed
import MailMerge.Proofs.Tree.Spared

namespace MailMerge

open MailMerge.Merge MailMerge.Outline MailMerge.Tree

/-! ## The order of the scan -/

namespace Outline

open Block

variable {r : Registry} {t : Tree} (h : t.WellFormed) {id : NodeId} {before after : List Statement}
  (ho : Outlined r t (t.fields id) (before ++ after))

include h ho

/-- The fields of earlier statements begin in no body of a later statement. -/
theorem Outlined.not_within_later_body {f : Field} (hf : f ∈ before.flatMap topFields) {b : Block}
    (hb : b ∈ after.flatMap Statement.blocks) {x : NodeId} (hx : x ∈ b.body) : ¬ t.Within x f.marker := by
  intro hw
  obtain ⟨st, hst, hbst⟩ := List.mem_flatMap.mp hb
  have hmem : st ∈ before ++ after := List.mem_append_right before hst
  have hstart : b.startField ∈ after.flatMap topFields := by
    obtain ⟨pre, post, htop⟩ := ho.beside hmem hbst
    apply List.mem_flatMap.mpr
    exact ⟨st, hst, by rw [htop]; simp⟩
  have hsub : [f, b.startField].Sublist (t.fields id) := by
    refine List.Sublist.trans ?_ ho.topFields_sublist
    rw [List.flatMap_append]
    exact (List.singleton_sublist.mpr hf).append (List.singleton_sublist.mpr hstart)
  exact (behind_of_within h (ho.resolves hmem hbst) (hsub.subset (by simp)) hx hw).2 hsub

/-- Nor does what is above their first anchors reach into one. -/
theorem Outlined.not_within_later_first {f : Field} (hf : f ∈ before.flatMap topFields) {b : Block}
    (hb : b ∈ after.flatMap Statement.blocks) {x : NodeId} (hx : x ∈ b.body) : ¬ t.Within x f.first := by
  intro hw
  have hplaced : f.Placed t := by
    apply placed_of_mem_fields (r := id)
    apply ho.topFields_sublist.subset
    rw [List.flatMap_append]
    exact List.mem_append_left _ hf
  exact ho.not_within_later_body h hf hb hx (within_trans hw hplaced.within_marker)

/-- A first boundary of an earlier statement stands in no later body, unless it begins it. -/
theorem Outlined.eq_startNode_of_within {b₀ : Block} (hb₀ : b₀ ∈ before.flatMap Statement.blocks) {b : Block}
    (hb : b ∈ after.flatMap Statement.blocks) {x : NodeId} (hx : x ∈ b.body) (hw : t.Within x b₀.startNode) :
    x = b₀.startNode := by
  obtain ⟨st, hst, hbst⟩ := List.mem_flatMap.mp hb₀
  have hmem : st ∈ before ++ after := List.mem_append_left after hst
  have hf : b₀.startField ∈ before.flatMap topFields := by
    obtain ⟨pre, post, htop⟩ := ho.beside hmem hbst
    apply List.mem_flatMap.mpr
    exact ⟨st, hst, by rw [htop]; simp⟩
  have hplaced : b₀.startField.Placed t := placed_of_mem_fields ((ho.mem_fields hmem).2 b₀ hbst).1
  by_contra hne
  have hup := (bounded_of_resolve? (ho.resolves hmem hbst)).above_first h hplaced hw hne
  exact ho.not_within_later_first h hf hb hx hup.1

end Outline

/-! ## What is added to a body -/

namespace Scan

/-- While statements of the scan are carried out: the nodes of the scanned tree read as they
    did, and nothing that was added to the bodies of the statements still to come carries
    a field. -/
structure Pending (c : Scan) (env : Environment) (rest : List Statement) (s : Session) : Prop where
  scan : InScan c.Unwraps c.tree c.statements env s
  reads : ∀ y < c.tree.size, c.tree.Reads y s.tree y
  bare : ∀ b ∈ rest.flatMap Statement.blocks, ∀ x ∈ b.body, ∀ y, c.tree.size ≤ y → s.tree.Within x y →
    (s.tree.kind y).carries = false

section steps

variable {r : Registry} {c : Scan} (hc : c.Made r)

include hc

theorem Made.inStore_of_body {st : Statement} (hst : st ∈ c.statements) {b : Block} (hb : b ∈ st.blocks) {x : NodeId}
    (hx : x ∈ b.body) : x ≠ root ∧ x < c.tree.size :=
  ((hc.owned st hst).blocks b hb).inStore x hx

/-- At first nothing has been added. -/
theorem Made.pending (env : Environment) : c.Pending env c.statements ⟨c.tree, env, c.ledger⟩ where
  scan := hc.inScan env
  reads y _ := reads_of_kind rfl
  bare := by
    intro b hb x hx y hy hw
    obtain ⟨st, hst, hbst⟩ := List.mem_flatMap.mp hb
    obtain ⟨-, hlt⟩ := hc.inStore_of_body hst hbst hx
    have hyt : y < c.tree.size := by
      by_cases he : y = x
      · exact he ▸ hlt
      · exact lt_size_of_within hw he
    omega

variable {env : Environment} (henv : env.reaches Content.isMarkup = false) {expand : NodeId → Merge Unit} (hexp : Expands expand)

include henv hexp

/-- New nodes within a body of a later statement carry no field: they are made for a text, or
    they are the content of a block that stands elsewhere. -/
theorem Pending.bare_new {done rest : List Statement} {st : Statement} (hsplit : c.statements = done ++ st :: rest)
    {s s' : Session} (hs : c.Pending env (st :: rest) s) (hrun : st.evaluate expand s = (.ok (), s')) {b : Block}
    (hb : b ∈ rest.flatMap Statement.blocks) {x : NodeId} (hx : x ∈ b.body) {y : NodeId} (hy : s.tree.size ≤ y)
    (hw : s'.tree.Within x y) : (s'.tree.kind y).carries = false := by
  have hst : st ∈ c.statements := by rw [hsplit]; simp
  obtain ⟨st', hst', hbst'⟩ := List.mem_flatMap.mp hb
  have hlt : x < s.tree.size := by
    have hlt := (hc.inStore_of_body (by rw [hsplit]; simp [hst']) hbst' hx).2
    exact Nat.lt_of_lt_of_le hlt hs.scan.lifted.grows
  by_cases hins : ∃ f o, st = .insertion f o
  · obtain ⟨f, o, rfl⟩ := hins
    obtain ⟨v, hval, hput⟩ := Statement.evaluate_insertion_eq_ok hrun
    have hv : ∀ source, v ≠ .content (.markup source) := by
      rintro source rfl
      exact Environment.evaluate_ne_markup ((hs.scan.env.reaches _).trans henv) o source hval
    rcases Statement.run_insert hv f s with hrem | ⟨text, htext⟩
    · rw [hrem] at hput
      cases hput
      have hylt : y < (f.remove s.tree).size := by
        rcases within_iff.mp hw with rfl | ⟨p, hp, -⟩
        · exact (size_detachAll s.tree f.anchors).symm ▸ hlt
        · exact lt_size_of_parent hp
      rw [Field.remove, size_detachAll] at hylt
      exact absurd hylt (Nat.not_lt_of_le hy)
    · rw [htext] at hput
      cases hput
      have hinert : Inert (fun _ => True) s.tree.size x (Splice.putText f text s.tree) :=
        Splice.inert_putText hs.scan.wellFormed hlt ((hs.scan.owned _ hst).field f o rfl)
          ⟨fun _ _ => trivial, fun _ _ _ _ _ => trivial, fun _ _ _ _ _ _ _ => trivial⟩ text
      exact hinert.kind y hy hw
  · have hne : ∀ f o, st ≠ .insertion f o := fun f o he => hins ⟨f, o, he⟩
    obtain ⟨pre, b₀, post, content, made, hm, -, hup, hstrict⟩ :=
      Statement.exists_content hexp hs.scan.wellFormed (hs.scan.owned st hst) hrun hne hlt hy hw
    -- the content stands above a first boundary of the statement, which no later body does
    exfalso
    have hb₀ : b₀ ∈ st.blocks := by rw [hm.blocks]; simp
    have ho : Outlined r c.tree (c.tree.fields c.top) ((done ++ [st]) ++ rest) := by
      have ho := hc.outlined
      rwa [hsplit, List.append_cons] at ho
    have hstart : b₀.startNode < c.tree.size := ((hc.owned st hst).blocks b₀ hb₀).startNode.2
    refine hstrict (ho.eq_startNode_of_within hc.wellFormed (List.mem_flatMap.mpr ⟨st, by simp, hb₀⟩) hb hx ?_)
    exact hs.scan.lifted.within hc.wellFormed hstart hup

/-- One statement. -/
theorem Pending.next {done rest : List Statement} {st : Statement} (hsplit : c.statements = done ++ st :: rest)
    {s s' : Session} (hs : c.Pending env (st :: rest) s) (hrun : st.evaluate expand s = (.ok (), s')) :
    c.Pending env rest s' := by
  have hst : st ∈ c.statements := by rw [hsplit]; simp
  have hown := hs.scan.owned st hst
  have hold : ∀ {y}, y < c.tree.size → y < s.tree.size := fun hy => Nat.lt_of_lt_of_le hy hs.scan.lifted.grows
  refine ⟨hs.scan.next hexp hc.wellFormed (fun st' hst' w hw => ⟨st', hst', hw⟩) hst hrun, fun y hy => ?_, ?_⟩
  · refine (hs.reads y hy).trans ⟨?_, fun hp hb => ?_⟩
    · exact (Statement.evaluate_bystanders hexp hs.scan.wellFormed hown hrun (hold hy)).1
    · exact Statement.kind_evaluate hexp hs.scan.wellFormed hown hrun (hold hy) hp hb
  · intro b hb x hx y hy hw
    by_cases hlt : y < s.tree.size
    · have hbefore := (Statement.lifted_evaluate hexp hs.scan.wellFormed hown hrun).within hs.scan.wellFormed hlt hw
      have hname := (Statement.evaluate_bystanders hexp hs.scan.wellFormed hown hrun hlt).1
      rw [Kind.carries_of_name? hname]
      exact hs.bare b (by rw [List.flatMap_cons]; exact List.mem_append_right _ hb) x hx y hy hbefore
    · exact hs.bare_new hc henv hexp hsplit hrun hb hx (Nat.le_of_not_lt hlt) hw

/-- All statements before the rest. -/
theorem Pending.run (done : List Statement) {sts : List Statement} (rest : List Statement) 
    (hsplit : c.statements = done ++ (sts ++ rest)) {s s' : Session} (hs : c.Pending env (sts ++ rest) s)
    (hrun : Statement.evaluateAll expand sts s = (.ok (), s')) : c.Pending env rest s' := by
  induction sts generalizing done s with
  | nil =>
    cases hrun
    exact hs
  | cons st sts ih =>
    obtain ⟨s₁, hone, hrest⟩ := Statement.evaluateAll_cons_eq_ok hrun
    have hnext := hs.next hc henv hexp hsplit hone
    exact ih (done ++ [st]) (by rw [hsplit]; simp) hnext hrest

end steps

end Scan

end MailMerge
