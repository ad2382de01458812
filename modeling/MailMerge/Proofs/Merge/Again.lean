/-
  MailMerge.Proofs.Merge.Again — a part that is merged again.

  The scans of a merge are that of the part and, level by level, those of the copies that are
  merged for the statements. If all of them are exhaustive no field is left that asks for
  anything, so a second merge finds nothing to do and leaves the part as it is.

  Proved: that (`merge_again`), in whatever environment the second merge happens. A field
  between the markers of a picture is left over by the first merge and replaced by the second
  (`merged_again_between_pictures`).
-/

import MailMerge.Proofs.Merge.Cells
import MailMerge.Proofs.Merge.Consumed

namespace MailMerge

open MailMerge.Tree Merge Outline

/-- The scans that merging below a node makes: of what is below it, and of each copy of a body
    that is merged on the next level. -/
def Merge.Scans (r : Registry) : (levels : Nat) → NodeId → Session → Scan → Prop
  | 0, _, _, _ => False
  | n + 1, id, s, c => ∃ ss l, ofFields r s.tree (s.tree.fields id) = .ok (ss, l) ∧
      (c = ⟨s.tree, id, ss, l⟩ ∨ ∃ done st rest s' b s'', ss = done ++ st :: rest ∧
        Statement.evaluateAll (below r n) done { s with ledger := l } = (.ok (), s') ∧ st.Copies (below r n) s' b s'' ∧
        Scans r n (Block.copyNodes s''.tree b.body).1 (b.copied s'') c)

/-! ## Levels -/

/-- Merging below a node leaves nothing live there, if the scans on all levels are exhaustive. -/
theorem idle_below (r : Registry) (n : Nat) {id : NodeId} {s last : Session} (hw : s.tree.WellFormed) (hid : id < s.tree.size)
    (htop : s.tree.parent id = none)
    (hname : s.tree.isNamed Word.tableRow id = false ∧ s.tree.isNamed Word.paragraph id = false)
    (henv : s.env.reaches Content.isMarkup = false) (hscans : ∀ c, Scans r n id s c → c.Exhaustive r)
    (hrun : below r n id s = (.ok (), last)) : last.tree.Idle r id := by
  induction n generalizing id s last with
  | zero => cases hrun
  | succ n ih =>
    obtain ⟨ss, l, last', hbuild, hall, rfl⟩ := run_below_eq_ok.mp hrun
    have hexp := expands_below r n
    have hc : Scan.Made r ⟨s.tree, id, ss, l⟩ := ⟨hw, htop, hid, hbuild⟩
    have hex := hscans _ ⟨ss, l, hbuild, Or.inl rfl⟩
    show last'.tree.Idle r id
    refine hex.idle hc hname hexp hall henv ?_
    intro done st rest s₁ (hsplit : ss = done ++ st :: rest) hdone b s₂ hcopies after hmerge
    have hsub : ∀ st' ∈ done, st' ∈ ss := fun st' hst' => by rw [hsplit]; exact List.mem_append_left _ hst'
    have hst : st ∈ ss := by rw [hsplit]; simp
    obtain ⟨hscan, -⟩ := (hc.inScan s.env).left hexp hw (fun st' hst' w hw => ⟨st', hst', hw⟩) hsub hdone
    obtain ⟨hwc, hreach⟩ := hcopies.spec hexp hscan.wellFormed (hscan.owned st hst) ((hscan.env.reaches _).trans henv)
    obtain ⟨hw₂, hb⟩ := hcopies.inStore hexp hscan.wellFormed (hscan.owned st hst)
    obtain ⟨hfst, hfill⟩ := Block.copyNodes_spec hw₂ (fun x hx => (hb x hx).1) fun x hx => (hb x hx).2
    have hcontainer : ∀ name, name ≠ Block.containerName → (b.copied s₂).tree.isNamed name (Block.copyNodes s₂.tree b.body).1 = false := by
      intro name hne
      rw [hfst]
      exact (isNamed_of_kind hfill.kind name).trans (beq_eq_false_iff_ne.mpr (Ne.symm hne))
    refine ih hwc (hfst ▸ hfill.lt_size) (hfst ▸ hfill.parent) ⟨hcontainer _ (by decide), hcontainer _ (by decide)⟩ hreach
      (fun c hcs => hscans c ⟨ss, l, hbuild, Or.inr ⟨done, st, rest, s₁, b, s₂, hsplit, hdone, hcopies, hcs⟩⟩) hmerge

/-- Where nothing is live merging changes nothing. -/
theorem below_of_idle {r : Registry} {n : Nat} {id : NodeId} {s : Session} (hw : s.tree.WellFormed)
    (htop : s.tree.parent id = none) (hidle : s.tree.Idle r id) : below r (n + 1) id s = (.ok (), s) :=
  run_below_eq_ok.mpr ⟨[], Ledger.empty, { s with ledger := Ledger.empty }, ofFields_of_idle hw htop hidle, rfl, rfl⟩

/-- A part in which nothing is live and all cells are repaired is left as it is. -/
theorem merge_of_idle {t : Tree} (h : t.WellFormed) {r : Registry} (hidle : t.Idle r root) (hcells : t.fillEmptyCells root = t)
    (env : Environment) : t.merge r env = ⟨.ok (), t, env⟩ := by
  have hlevels : levelBound (t.markers root) = (t.markers root).length + levelsForMarkup + 1 := Nat.add_right_comm _ _ _
  rw [merge_eq, hlevels, below_of_idle h h.top hidle]
  exact congrArg (fun u => Merged.mk (.ok ()) u env) hcells

/-- A part that was merged in scans that are exhaustive is left as it is when it is merged again. -/
theorem merge_again {t : Tree} (h : t.WellFormed) (hroot : t.isElement root = false) {r : Registry} {env : Environment}
    (henv : env.reaches Content.isMarkup = false)
    (hscans : ∀ c, Scans r (levelBound (t.markers root)) root ⟨t, env, Ledger.empty⟩ c → c.Exhaustive r)
    (hmerge : (t.merge r env).outcome = .ok ()) (env' : Environment) :
    (t.merge r env).tree.merge r env' = ⟨.ok (), (t.merge r env).tree, env'⟩ := by
  obtain ⟨last, hrun, htree, -⟩ := merge_eq_ok hmerge
  have hname : ∀ name, t.isNamed name root = false := fun name => by
    rw [Bool.eq_false_iff]
    intro hn
    rw [isElement_of_isNamed hn] at hroot
    cases hroot
  have hidle := idle_below r _ (s := ⟨t, env, Ledger.empty⟩) h h.rooted h.top ⟨hname _, hname _⟩ henv hscans hrun
  have hlast := expands_below r (levelBound (t.markers root)) root ⟨t, env, Ledger.empty⟩ 0 (fenced_zero h) (Nat.zero_le _)
  rw [hrun] at hlast
  have hw : last.tree.WellFormed := hlast.tree.wellFormed
  obtain ⟨hrep, -⟩ := repaired_fillEmptyCells hw root
  rw [htree]
  exact merge_of_idle hrep.wellFormed (idle_fillEmptyCells hw hidle) (fillEmptyCells_again hw root) env'

/-! ## A picture and a conditional -/

namespace FieldsInParagraph

/-- A name for a guard that holds, one for no picture, and two for texts. -/
def texts : Environment :=
  ⟨[("a", .boolean true), ("x", .nil), ("n", .content (.text "N")), ("f", .content (.text "F"))], [], .lenient, .empty⟩

/-- An insertion between the markers of a picture. -/
def pictured : Tree := fieldsInParagraph ["@x:start", "=n", "@x:end"]

def conditional : Condition := ⟨⟨"a", []⟩, none, ⟨.inline, fieldAt 2 "a:if", fieldAt 4 "a:endIf", 2, 4, [3]⟩⟩

/-- The scan of the conditional, and that of the copy of its body. -/
def outer : Scan := ⟨kept, root, [.condition conditional], ⟨[4, 2], [], [1, 1]⟩⟩

def inner : Scan := ⟨(Block.copyNodes kept [3]).2, 5, [.insertion (fieldAt 6 "=f") ⟨"f", []⟩], .empty⟩

theorem scans_kept {c : Scan} (h : Scans Registry.stock (levelBound (kept.markers root)) root ⟨kept, texts, .empty⟩ c) :
    c = outer ∨ c = inner := by
  have hlevels : levelBound (kept.markers root) = 2 + levelsForMarkup + 1 + 1 := by decide
  have houter : ofFields Registry.stock kept (kept.fields root) = .ok ([.condition conditional], ⟨[4, 2], [], [1, 1]⟩) := by cbv
  have hinner : ofFields Registry.stock inner.tree (inner.tree.fields 5) = .ok (inner.statements, .empty) := by cbv
  have hsingle : ∀ {done rest : List Statement} {st st' : Statement}, [st'] = done ++ st :: rest → done = [] ∧ st = st' := by
    intro done rest st st' he
    cases done with
    | nil => exact ⟨rfl, (List.cons.inj he).1.symm⟩
    | cons d done => simp at he
  rw [hlevels] at h
  obtain ⟨ss, l, hbuild, rfl | ⟨done, st, rest, s', b, s'', hsplit, hdone, hcopies, ss', l', hbuild', hin⟩⟩ := h
  · rw [houter] at hbuild
    cases hbuild
    exact Or.inl rfl
  · rw [houter] at hbuild
    cases hbuild
    obtain ⟨rfl, rfl⟩ := hsingle hsplit
    cases hdone
    cases hcopies
    have hcopy : ofFields Registry.stock inner.tree (inner.tree.fields 5) = .ok (ss', l') := hbuild'
    rw [hinner] at hcopy
    cases hcopy
    rcases hin with rfl | ⟨done, st, rest, s', b, s'', hsplit, -, hcopies, -⟩
    · exact Or.inr rfl
    · obtain ⟨-, rfl⟩ := hsingle hsplit
      cases hcopies

theorem not_named_of_all {t : Tree} {name : String} (h : ∀ x < t.size, t.isNamed name x = false) (x : NodeId) :
    ¬ t.isNamed name x = true := fun hn => by
  rw [h x (lt_size_of_isNamed hn)] at hn
  cases hn

theorem wellFormed_kept : kept.WellFormed := wellFormed_of_earlier (by decide) (by decide) (by decide)

theorem exhaustive_outer : outer.Exhaustive Registry.stock := by
  have hno : ∀ p, ¬ kept.isNamed Word.instructionText p = true := not_named_of_all (by decide)
  have hfields : kept.fields root = [fieldAt 2 "a:if", fieldAt 3 "=f", fieldAt 4 "a:endIf"] := by cbv
  refine ⟨(apart_iff wellFormed_kept).mpr (by decide), fun p x _ _ hn => absurd hn (hno p), by decide,
    fun f hf hnot hshape hd => ?_, fun p x _ hn => absurd hn (hno p)⟩
  have hmem : f ∈ [fieldAt 2 "a:if", fieldAt 3 "=f", fieldAt 4 "a:endIf"] := hfields ▸ hf
  simp only [List.mem_cons, List.not_mem_nil, or_false] at hmem
  rcases hmem with rfl | rfl | rfl
  · exact absurd (by decide) hnot
  · exact ⟨3, .body (List.mem_singleton_self conditional.block) (by decide) (List.mem_singleton_self 3), within_refl _ _⟩
  · exact absurd (by decide) hnot

theorem exhaustive_inner : inner.Exhaustive Registry.stock := by
  have hno : ∀ p, ¬ inner.tree.isNamed Word.instructionText p = true := not_named_of_all (by decide)
  have hfields : inner.tree.fields 5 = [fieldAt 6 "=f"] := by cbv
  refine ⟨fun f hf g hg hne => ?_, fun p x _ _ hn => absurd hn (hno p), by decide,
    fun f hf hnot hshape hd => ?_, fun p x _ hn => absurd hn (hno p)⟩
  · exact absurd ((List.mem_singleton.mp hf).trans (List.mem_singleton.mp hg).symm) hne
  · exact absurd (hfields ▸ hf : f ∈ [fieldAt 6 "=f"]) hnot

end FieldsInParagraph

open FieldsInParagraph in
/-- Between the markers of a picture the insertion is passed, and stays when the picture is
    kept as it is. The second merge finds it. -/
theorem merged_again_between_pictures : ∃ (t : Tree) (env : Environment), t.WellFormed ∧
    (∀ x, t.isNamed Word.fieldChar x = true → ∃ p, t.parent x = some p ∧ t.isNamed Word.run p = true) ∧
    env.reaches Content.isMarkup = false ∧ (t.merge Registry.stock env).outcome = .ok () ∧
    ((t.merge Registry.stock env).tree.merge Registry.stock env).outcome = .ok () ∧
    ((t.merge Registry.stock env).tree.merge Registry.stock env).tree.toMarkup ≠ (t.merge Registry.stock env).tree.toMarkup := by
  have hno : ∀ p, ¬ pictured.isNamed Word.fieldChar p = true := not_named_of_all (by decide)
  have hfirst : (pictured.merge Registry.stock texts).tree.toMarkup =
      "<w:p><w:fldSimple w:instr=\"MERGEFIELD =n\"/></w:p>" := by cbv
  have hsecond : ((pictured.merge Registry.stock texts).tree.merge Registry.stock texts).tree.toMarkup =
      "<w:p><w:r><w:t>N</w:t></w:r></w:p>" := by cbv
  refine ⟨pictured, texts, wellFormed_of_earlier (by decide) (by decide) (by decide), fun x hn => absurd hn (hno x), by cbv,
    by cbv, by cbv, ?_⟩
  rw [hfirst, hsecond]
  decide

open FieldsInParagraph in
/-- An insertion in a conditional is used up with the copy that it is merged in. -/
theorem conditional_merged_again : kept.WellFormed ∧ (kept.merge Registry.stock texts).outcome = .ok () ∧
    (kept.merge Registry.stock texts).tree.merge Registry.stock texts = ⟨.ok (), (kept.merge Registry.stock texts).tree, texts⟩ := by
  have hmerge : (kept.merge Registry.stock texts).outcome = .ok () := by cbv
  refine ⟨wellFormed_kept, hmerge, merge_again wellFormed_kept (by decide) (by cbv) (fun c hc => ?_) hmerge texts⟩
  rcases scans_kept hc with rfl | rfl
  · exact exhaustive_outer
  · exact exhaustive_inner

end MailMerge
