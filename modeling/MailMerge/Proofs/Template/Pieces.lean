/-
  MailMerge.Proofs.Template.Pieces — the insertions of an ordinary paragraph.

  They are carried out from left to right. Each changes what stands in its field's place
  among the children of the paragraph, and nothing outside of the field.

  Proved: an ordinary paragraph becomes what the reference says (`Stage.paragraph`).
-/

import MailMerge.Proofs.Merge.Agrees
import MailMerge.Proofs.Template.Stage
import MailMerge.Proofs.Value.Reach

namespace MailMerge

open MailMerge.Tree Merge

/-- Some content can be reached from the environment. -/
def Environment.holdsContent (env : Environment) : Bool := env.reaches fun _ => true

theorem Value.ne_content {v : Value} (h : v.reaches (fun _ => true) = false) (c : Content) : v ≠ .content c := fun he => by
  rw [he] at h
  cases h

/-- The field keeps its place for a text, or goes. -/
def Field.settle (f : Field) (t : Tree) : Option String → Tree
  | none => f.remove t
  | some s => Splice.putText f s t

/-- A value without contents is inserted as its text, or not at all. -/
theorem Statement.insert_eq {v : Value} (h : v.reaches (fun _ => true) = false) (f : Field) :
    Statement.insert f v = editTree fun t => f.settle t v.inserted? := by
  cases v with
  | nil => rfl
  | boolean b => cases b <;> rfl
  | content c => exact absurd rfl (Value.ne_content h c)
  | _ => rfl

section pieces

variable {t : Tree} (ht : t.WellFormed)

theorem settle_spec {u : Tree} (h : u.WellFormed) {c x : NodeId} {as xs : List NodeId} {i : Insertion}
    (hx : u.twig x = i.twig) (hc : u.children c = as ++ x :: xs) (text : Option String) :
    Relists (fun d => d = c ∨ u.Within x d) u ((Field.simpleAt t x i.expression).settle u text) ∧
      ∃ new, ((Field.simpleAt t x i.expression).settle u text).children c = as ++ (new ++ xs) ∧
        new.map ((Field.simpleAt t x i.expression).settle u text).twig = (text.map i.showing).toList := by
  have hfirst : (Field.simpleAt t x i.expression).first = x := rfl
  have hshape : (Field.simpleAt t x i.expression).shape = .simple := rfl
  have hothers : (Field.simpleAt t x i.expression).others = [] := rfl
  generalize Field.simpleAt t x i.expression = f at hfirst hshape hothers ⊢
  subst hfirst
  cases text with
  | none =>
    obtain ⟨hrel, hch⟩ := Splice.remove_spec h hothers hc
    exact ⟨hrel.mono fun d _ hd => Or.inl hd, [], hch, rfl⟩
  | some s =>
    have hshows : Splice.Shows u f i.run i.text i.before i.result i.after := ⟨hshape, hothers, ⟨_, hx⟩, i.first⟩
    obtain ⟨hrel, r, hch, htwig⟩ := Splice.putText_spec h hshows hc s
    exact ⟨hrel, [r], hch, by rw [List.map_singleton]; exact congrArg (fun w => [w]) htwig⟩

include ht

/-- One insertion changes the children of its paragraph at one place. -/
theorem Stage.insertion {c x : NodeId} {ws : List Twig} {xs : List NodeId} {u : Tree} {i : Insertion}
    (hS : Stage t c ws (x :: xs) u) (hx : t.twig x = i.twig) (text : Option String) :
    Stage t c (ws ++ (text.map i.showing).toList) xs ((Field.simpleAt t x i.expression).settle u text) ∧
      Relists (t.Within c) u ((Field.simpleAt t x i.expression).settle u text) := by
  have hw := hS.wellFormed
  have hxu := hS.mem_children List.mem_cons_self
  have hedit : ∀ as, u.children c = as ++ x :: xs → _ := fun as has =>
    settle_spec (t := t) hw ((hS.twig ht List.mem_cons_self).trans hx) has text
  obtain ⟨as, has, -⟩ := hS.done
  obtain ⟨hrel, -⟩ := hedit as has
  refine ⟨Stage.step ht (show Stage t c ws ([x] ++ xs) u from hS) hrel (fun d hd => ?_) (fun y hy hyx d hd hP => ?_)
    fun as has => (hedit as has).2, hrel.mono fun d _ hd => ?_⟩
  · rcases hd with rfl | hd
    · exact within_refl u d
    · exact within_trans (within_of_parent (hw.parent_of_mem hxu)) hd
  · rcases hP with rfl | hP
    · exact hw.not_within_of_parent (hw.parent_of_mem hy) hd
    · have hpx := hw.parent_of_mem hxu
      have hsame : u.parent y = u.parent x := (hw.parent_of_mem hy).trans hpx.symm
      exact hyx (List.mem_singleton.mpr (hw.eq_of_within_siblings hsame hd hP (by rw [hsame, hpx]; exact Option.some_ne_none c)))
  · rcases hd with rfl | hd
    · exact within_refl t d
    · exact within_trans (within_of_parent (ht.parent_of_mem (hS.still x List.mem_cons_self))) ((hS.within_iff ht List.mem_cons_self).mp hd)

/-- What the statements of some pieces leave behind. -/
structure Piece.Settled (t : Tree) (c : NodeId) (ws : List Twig) (s s' : Session) : Prop where
  stage : Stage t c ws [] s'.tree
  relists : Relists (t.Within c) s.tree s'.tree
  env : s'.env = s.env
  ledger : s'.ledger = s.ledger

/-- The insertions of a paragraph are carried out as the reference says. -/
theorem Stage.pieces {expand : NodeId → Merge Unit} {env : Environment} (henv : env.holdsContent = false) {c : NodeId}
    {ps : List Piece} {xs : List NodeId} {ss : List Statement} (hplan : Piece.Planned t ps xs ss) {ws : List Twig}
    {s : Session} (hS : Stage t c ws xs s.tree) (halike : s.env.Alike env) :
    Agrees (fun _ ws' s' => Piece.Settled t c (ws ++ ws') s s') (Piece.expandAll env ps) (Statement.evaluateAll expand ss s) := by
  induction hplan generalizing ws s with
  | nil => exact .ok ⟨by rw [List.append_nil]; exact hS, .refl hS.wellFormed, rfl, rfl⟩
  | @plain w hw ps x xs ss hx hrest ih =>
    have hpass := hS.pass ht
    rw [hx] at hpass
    have hmore := ih hpass halike
    show Agrees _ (Piece.expandAll env ps >>= fun more => .ok ([w] ++ more)) _
    refine (hmore.bind_pure _).mono ?_
    rintro _ _ s' ⟨more, rfl, hset⟩
    rwa [List.append_assoc] at hset
  | @insertion i ps x xs ss hx hrest ih =>
    have hone : Agrees (fun _ twigs s' => Stage t c (ws ++ twigs) xs s'.tree ∧ Relists (t.Within c) s.tree s'.tree ∧
        s'.env = s.env ∧ s'.ledger = s.ledger) (Piece.expand env (.insertion i))
        ((Statement.insertion (Field.simpleAt t x i.expression) i.operand).evaluate expand s) := by
      have hask := agrees_askOperand (Field.simpleAt t x i.expression).span (i.operand.evaluate_alike halike)
      refine Agrees.bind hask fun value _ s' hs' => ?_
      obtain ⟨rfl, rfl, hvalue⟩ := hs'
      rw [Statement.insert_eq (Environment.reaches_evaluate henv hvalue), run_editTree]
      obtain ⟨hstage, hrel⟩ := hS.insertion ht hx value.inserted?
      exact .ok ⟨hstage, hrel, rfl, rfl⟩
    refine Agrees.bind hone fun _ twigs s' hs' => ?_
    obtain ⟨hstage, hrel, he, hl⟩ := hs'
    have hmore := ih hstage (by rw [he]; exact halike)
    refine (hmore.bind_pure _).mono ?_
    rintro _ _ s'' ⟨more, rfl, hset⟩
    rw [List.append_assoc] at hset
    exact ⟨hset.stage, hrel.trans hset.relists, hset.env.trans he, hset.ledger.trans hl⟩

/-- An ordinary paragraph becomes what the reference says. -/
theorem Stage.paragraph {expand : NodeId → Merge Unit} {env : Environment} (henv : env.holdsContent = false) {p c : NodeId}
    {q : Paragraph} {cs : List NodeId} {ss : List Statement} (hk : t.kind c = .element Word.paragraph q.attributes)
    (hplan : Piece.Planned t q.pieces (t.children c) ss) {ws : List Twig} {s : Session}
    (hS : Stage t p ws (c :: cs) s.tree) (halike : s.env.Alike env) :
    Agrees (fun _ w s' => Stage t p (ws ++ [w]) cs s'.tree ∧ s'.env = s.env ∧ s'.ledger = s.ledger) (q.expand env)
      (Statement.evaluateAll expand ss s) := by
  have hw := hS.wellFormed
  have hsame := hS.same c List.mem_cons_self
  have hcu := hS.mem_children List.mem_cons_self
  have hpc := hw.parent_of_mem hcu
  have hct := ht.parent_of_mem (hS.still c List.mem_cons_self)
  have hinner : Stage t c [] (t.children c) s.tree := by
    refine ⟨hw, hw.lt_size_of_mem hcu, (hsame c (within_refl t c)).1, fun a ha => ?_, ⟨[], (hsame c (within_refl t c)).2, rfl⟩,
      fun _ => id, fun x hx d hd => hsame d (within_trans (within_of_parent (ht.parent_of_mem hx)) hd)⟩
    by_cases hca : c = a
    · exact hca ▸ within_refl s.tree c
    · exact within_parent (hS.above a (within_parent_of_ne ha hca hct)) hpc
  refine ((Stage.pieces ht henv hplan hinner halike).bind_pure _).mono ?_
  rintro _ _ s' ⟨ws', rfl, hset⟩
  refine ⟨?_, hset.env, hset.ledger⟩
  refine Stage.step ht (show Stage t p ws ([c] ++ cs) s.tree from hS) hset.relists
    (fun d hd => within_trans (within_of_parent hpc) ((hS.within_iff ht List.mem_cons_self).mpr hd)) (fun x hx hxc d hd hP => ?_) fun as has => ?_
  · rw [← hS.within_iff ht List.mem_cons_self] at hP
    have hsib : s.tree.parent x = s.tree.parent c := (hw.parent_of_mem hx).trans hpc.symm
    exact hxc (List.mem_singleton.mpr (hw.eq_of_within_siblings hsib hd hP (by rw [hsib, hpc]; exact Option.some_ne_none p)))
  · refine ⟨[c], ?_, ?_⟩
    · rw [hset.relists.children p hS.lt_size, has]
      rw [← hS.within_iff ht List.mem_cons_self]
      exact hw.not_within_of_parent hpc
    · obtain ⟨as', has', htwigs⟩ := hset.stage.done
      rw [List.append_nil] at has'
      rw [List.map_singleton, hset.relists.wellFormed.twig_eq c, has', htwigs,
        hset.relists.kind c (hw.lt_size_of_mem hcu), (hsame c (within_refl t c)).1, hk, List.nil_append]

end pieces

end MailMerge
