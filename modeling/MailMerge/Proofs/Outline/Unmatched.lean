/-
  MailMerge.Proofs.Outline.Unmatched — blocks that are not ended.

  The builder reads the fields one by one, and at each place some blocks are open, the one
  started last as the innermost (`Opened`). What it makes of the next field depends on that
  block only: its end, then one of its branch marks, then the start of another block. A field
  that could start a block may be taken for a branch mark instead; then no end is looked for.

  Proved: a field that starts a block, is no branch mark where it stands, and has no end behind
  it is not accepted; and a build that misses an end tells the field whose block is open when
  all fields are read (`unmatched_opening`). A conditional takes the start of a loop for a
  branch mark, and the build goes through (`opening_taken_for_mark`).
-/

import Mathlib
import MailMerge.Proofs.Outline.Faults
import MailMerge.Proofs.Outline.Stock

namespace MailMerge

open MailMerge.Tree

/-! ## Failures that miss an end -/

namespace Failure

/-- A block is not ended. -/
def LacksEnd (e : Failure) : Prop := ∃ start stop, e.cause = .template (.missingEnd start stop)

theorem cause_template (fault : TemplateFault) (span : Span) : (template fault span).cause = .template fault := by
  rw [template, cause_locatedAt]
  rfl

theorem span_template (fault : TemplateFault) (span : Span) :
    (template fault span).span = if span.isEmpty then none else some span := by
  cases h : span.isEmpty <;> simp [template, locatedAt, ofCause, h]

end Failure

namespace Outline

variable {r : Registry} {t : Tree} {nested : Bool} {l : Ledger} {e : Failure}

theorem operand_lacks_no_end {f : Field} {text : String} (h : operand f text = .error e) : ¬ e.LacksEnd := by
  rw [operand] at h
  cases hp : Operand.parse text with
  | ok o => rw [hp] at h; cases h
  | error error =>
    rw [hp] at h
    cases h
    rintro ⟨start, stop, he⟩
    cases (Failure.cause_template _ _).symm.trans he

theorem enclose_lacks_no_end {start stop : Field} (h : enclose t nested l start stop = .error e) : ¬ e.LacksEnd := by
  rw [enclose, Block.enclose] at h
  cases hb : Block.resolve? t start stop with
  | some b => rw [hb] at h; cases h
  | none =>
    rw [hb] at h
    cases h
    rintro ⟨a, b, he⟩
    cases (Failure.cause_template _ _).symm.trans he

theorem branch_lacks_no_end {guard : Guard} {start stop : Field} (h : branch t nested l guard start stop = .error e) :
    ¬ e.LacksEnd := by
  rw [branch, bind_eq_error] at h
  obtain ho | ⟨o, -, h⟩ := h
  · exact operand_lacks_no_end ho
  · rw [bind_eq_error] at h
    obtain hb | ⟨b, -, h⟩ := h
    · exact enclose_lacks_no_end hb
    · cases h

theorem branches_lack_no_end {opening : Field} {name : String} {otherwise : Option Block} {start : Field} {marks : List Field}
    (h : branches t nested opening name l otherwise start marks = .error e) : ¬ e.LacksEnd := by
  induction marks generalizing start l otherwise with
  | nil => cases h
  | cons stop marks ih =>
    rw [branches] at h
    split at h
    · cases h
      rintro ⟨a, b, he⟩
      cases (Failure.cause_template _ _).symm.trans he
    · split at h
      · rw [bind_eq_error] at h
        obtain hb | ⟨b, -, h⟩ := h
        · exact enclose_lacks_no_end hb
        · exact ih h
      · rw [bind_eq_error] at h
        obtain hb | ⟨c, -, h⟩ := h
        · exact branch_lacks_no_end hb
        · rw [bind_eq_error] at h
          obtain hb | ⟨more, -, h⟩ := h
          · exact ih hb
          · cases h

theorem conditional_lacks_no_end {f stop : Field} {guard : Guard} {markers : List Field}
    (h : conditional t nested l f guard markers stop = .error e) : ¬ e.LacksEnd := by
  rw [conditional, bind_eq_error] at h
  obtain hb | ⟨c, -, h⟩ := h
  · exact branch_lacks_no_end hb
  · cases markers with
    | nil => cases h
    | cons m ms =>
      rw [bind_eq_error] at h
      obtain hb | ⟨more, -, h⟩ := h
      · exact branches_lack_no_end hb
      · cases h

/-- When a field lacks an end, this was found out while its block was read. -/
theorem takeUntil_of_takeField_lacks_end {insertions : Bool} {f : Field} {fields : List Field}
    (h : takeField r t nested insertions l f fields = .error e) (he : e.LacksEnd) :
    ∃ stop isMarker, closing? r f = some (stop, isMarker) ∧ takeUntil r t f stop isMarker l fields = .error e := by
  rw [takeField] at h
  cases hd : r.directive f.expression with
  | nothing => rw [hd] at h; cases h
  | value o => rw [hd] at h; cases h
  | insertion text =>
    simp only [hd] at h
    split at h
    · rw [bind_eq_error] at h
      obtain ho | ⟨o, -, h⟩ := h
      · exact absurd he (operand_lacks_no_end ho)
      · cases h
    · cases h
  | loop list iterator stop =>
    refine ⟨stop, fun _ => false, congrArg Directive.closing? hd, ?_⟩
    simp only [hd] at h
    obtain hu | ⟨taken, -, h⟩ := bind_eq_error.mp h
    · exact hu
    · obtain ho | ⟨o, -, h⟩ := bind_eq_error.mp h
      · exact absurd he (operand_lacks_no_end ho)
      · obtain hb | ⟨b, -, h⟩ := bind_eq_error.mp h
        · exact absurd he (enclose_lacks_no_end hb)
        · cases h
  | conditional guard =>
    refine ⟨Directive.conditionalEnd guard.name, Directive.isBranchMarker guard.name, congrArg Directive.closing? hd, ?_⟩
    simp only [hd] at h
    obtain hu | ⟨taken, -, h⟩ := bind_eq_error.mp h
    · exact hu
    · obtain hb | ⟨made, -, h⟩ := bind_eq_error.mp h
      · exact absurd he (conditional_lacks_no_end hb)
      · cases h
  | picture name =>
    refine ⟨Directive.pictureEnd name, fun _ => false, congrArg Directive.closing? hd, ?_⟩
    simp only [hd] at h
    obtain hu | ⟨taken, -, h⟩ := bind_eq_error.mp h
    · exact hu
    · obtain ho | ⟨o, -, h⟩ := bind_eq_error.mp h
      · exact absurd he (operand_lacks_no_end ho)
      · obtain hb | ⟨b, -, h⟩ := bind_eq_error.mp h
        · exact absurd he (enclose_lacks_no_end hb)
        · cases h
  | comment =>
    refine ⟨Directive.commentEnd, fun _ => false, congrArg Directive.closing? hd, ?_⟩
    simp only [hd] at h
    obtain hu | ⟨taken, -, h⟩ := bind_eq_error.mp h
    · exact hu
    · obtain hb | ⟨b, -, h⟩ := bind_eq_error.mp h
      · exact absurd he (enclose_lacks_no_end hb)
      · cases h

/-! ## Open blocks -/

/-- When the fields `before` are read, the innermost block that is open was started by `g`, and
    goes on to `stop`, over branch marks. -/
inductive Opened (r : Registry) (t : Tree) : (before : List Field) → (g : Field) → (stop : String) → (isMarker : String → Bool) → Prop
  | outer {done inner marks : List Field} {ss : List Statement} {g : Field} {stop : String} {isMarker : String → Bool} :
      Outlined r t done ss → closing? r g = some (stop, isMarker) → Filled r t stop isMarker inner marks →
      Opened r t (done ++ g :: inner) g stop isMarker
  | inner {before inner marks : List Field} {f g : Field} {stop stop' : String} {isMarker isMarker' : String → Bool} :
      Opened r t before f stop isMarker → g.expression ≠ stop → isMarker g.expression = false →
      closing? r g = some (stop', isMarker') → Filled r t stop' isMarker' inner marks →
      Opened r t (before ++ g :: inner) g stop' isMarker'

namespace Opened

variable {before more marks : List Field} {g f : Field} {stop stop' : String} {isMarker isMarker' : String → Bool}

/-- Marks and whole groups leave the block open. -/
theorem extend (h : Opened r t before g stop isMarker) (hmore : Filled r t stop isMarker more marks) :
    Opened r t (before ++ more) g stop isMarker := by
  cases h with
  | outer hdone hc hfill =>
    rw [List.append_assoc, List.cons_append]
    exact .outer hdone hc (hfill.append hmore)
  | inner h hs hm hc hfill =>
    rw [List.append_assoc, List.cons_append]
    exact .inner h hs hm hc (hfill.append hmore)

/-- Another block is started in the one that is open. -/
theorem start (h : Opened r t before g stop isMarker) (hs : f.expression ≠ stop) (hm : isMarker f.expression = false)
    (hc : closing? r f = some (stop', isMarker')) : Opened r t (before ++ [f]) f stop' isMarker' := .inner h hs hm hc .nil

/-- Behind the field that started the block there are marks and whole groups only. -/
theorem exists_filled (h : Opened r t before g stop isMarker) : ∃ front inner marks, before = front ++ g :: inner ∧
    closing? r g = some (stop, isMarker) ∧ Filled r t stop isMarker inner marks := by
  cases h with
  | outer _ hc hfill => exact ⟨_, _, _, rfl, hc, hfill⟩
  | inner _ _ _ hc hfill => exact ⟨_, _, _, rfl, hc, hfill⟩

end Opened

/-! ## Starts without an end -/

/-- Where a list is cut at two places, the second is in front of the first, the same, or behind it. -/
theorem cut_cases {α : Type} {l₁ l₂ before after : List α} {x y : α} (h : l₁ ++ x :: l₂ = before ++ y :: after) :
    (∃ mid, l₁ = before ++ y :: mid ∧ after = mid ++ x :: l₂) ∨ (before = l₁ ∧ y = x ∧ after = l₂) ∨
      ∃ mid, before = l₁ ++ x :: mid ∧ l₂ = mid ++ y :: after := by
  rcases List.append_eq_append_iff.mp h with ⟨mid, rfl, hmid⟩ | ⟨mid, rfl, hmid⟩
  · cases mid with
    | nil =>
      obtain ⟨rfl, rfl⟩ := List.cons.inj hmid
      exact Or.inr (Or.inl ⟨List.append_nil _, rfl, rfl⟩)
    | cons z mid =>
      obtain ⟨rfl, rfl⟩ := List.cons.inj hmid
      exact Or.inr (Or.inr ⟨mid, rfl, rfl⟩)
  · cases mid with
    | nil =>
      obtain ⟨rfl, rfl⟩ := List.cons.inj hmid
      exact Or.inr (Or.inl ⟨(List.append_nil _).symm, rfl, rfl⟩)
    | cons z mid =>
      obtain ⟨rfl, rfl⟩ := List.cons.inj hmid
      exact Or.inl ⟨mid, rfl, rfl⟩

/-- The field is taken for a branch mark of the innermost block that is open. -/
def MarkAt (r : Registry) (t : Tree) (before : List Field) (f : Field) : Prop :=
  ∃ g stop isMarker, Opened r t before g stop isMarker ∧ isMarker f.expression = true

/-- What is a mark of no block that was started before is taken for none. -/
theorem not_markAt {before : List Field} {f : Field} (h : ∀ g ∈ before, ∀ stop isMarker, closing? r g = some (stop, isMarker) →
    isMarker f.expression = false) : ¬ MarkAt r t before f := by
  rintro ⟨g, stop, isMarker, hopen, hm⟩
  obtain ⟨front, inner, marks, rfl, hc, -⟩ := hopen.exists_filled
  rw [h g (by simp) stop isMarker hc] at hm
  cases hm

section matched

variable (hr : ∀ (f g : Field) {stop : String} {isMarker : String → Bool} {closing : String × (String → Bool)},
  closing? r f = some closing → closing? r g = some (stop, isMarker) → f.expression ≠ stop)
  {f : Field} {stop : String} {isMarker : String → Bool} (hf : closing? r f = some (stop, isMarker))

include hr hf

/-- What starts a block within another one is ended there, or is taken for a branch mark. -/
theorem Filled.matched {stop' : String} {isMarker' : String → Bool} {inner marks : List Field}
    (h : Filled r t stop' isMarker' inner marks) {done : List Field} {g : Field} (hopen : Opened r t done g stop' isMarker')
    {before after : List Field} (hsplit : inner = before ++ f :: after) :
    (∃ g ∈ after, g.expression = stop) ∨ MarkAt r t (done ++ before) f := by
  induction h generalizing done g before after with
  | nil => exact absurd hsplit (by simp)
  | @mark stop' isMarker' m inner marks hs hm hfill ih =>
    rcases List.cons_eq_append_iff.mp hsplit with ⟨rfl, hhead⟩ | ⟨mid, rfl, hmid⟩
    · obtain ⟨rfl, -⟩ := List.cons.inj hhead
      exact Or.inr ⟨g, stop', isMarker', by rwa [List.append_nil], hm⟩
    · have hnext := ih (hopen.extend (.mark hs hm .nil)) hmid
      rwa [List.append_assoc] at hnext
  | @lone stop' isMarker' x inner marks hs hm hc hfill ih =>
    rcases List.cons_eq_append_iff.mp hsplit with ⟨rfl, hhead⟩ | ⟨mid, rfl, hmid⟩
    · obtain ⟨rfl, -⟩ := List.cons.inj hhead
      exact nomatch hc.symm.trans hf
    · have hnext := ih (hopen.extend (.lone hs hm hc .nil)) hmid
      rwa [List.append_assoc] at hnext
  | @block stop' stop₁ isMarker' isMarker₁ x e inner inner₁ marks marks₁ s hs hm hc hin he hclose hfill ih₁ ih =>
    rcases List.cons_eq_append_iff.mp hsplit with ⟨rfl, hhead⟩ | ⟨mid, rfl, hmid⟩
    · obtain ⟨rfl, rfl⟩ := List.cons.inj hhead
      cases hc.symm.trans hf
      exact Or.inl ⟨e, by simp, he⟩
    · rcases cut_cases hmid with ⟨mid', rfl, rfl⟩ | ⟨rfl, rfl, rfl⟩ | ⟨mid', rfl, hmid'⟩
      · rcases ih₁ (hopen.start hs hm hc) rfl with ⟨g', hg', hstop⟩ | hmark
        · exact Or.inl ⟨g', List.mem_append_left _ hg', hstop⟩
        · rw [List.append_assoc] at hmark
          exact Or.inr hmark
      · exact absurd he (hr f x hf hc)
      · have hnext := ih (hopen.extend (.block hs hm hc hin he hclose .nil)) hmid'
        simp only [List.cons_append, List.nil_append, List.append_assoc] at hnext ⊢
        exact hnext

/-- What starts a block is ended, or is taken for a branch mark. -/
theorem Outlined.matched {fields : List Field} {ss : List Statement} (h : Outlined r t fields ss) {before after : List Field}
    (hsplit : fields = before ++ f :: after) : (∃ g ∈ after, g.expression = stop) ∨ MarkAt r t before f := by
  suffices hall : ∀ done ss₀, Outlined r t done ss₀ → (∃ g ∈ after, g.expression = stop) ∨ MarkAt r t (done ++ before) f from
    hall [] [] .nil
  induction h generalizing before after with
  | nil => exact absurd hsplit (by simp)
  | @skip x rest ss hd hrest ih =>
    intro done ss₀ hdone
    rcases List.cons_eq_append_iff.mp hsplit with ⟨rfl, hhead⟩ | ⟨mid, rfl, hmid⟩
    · obtain ⟨rfl, -⟩ := List.cons.inj hhead
      rw [closing?, hd] at hf
      cases hf
    · have hnext := ih hmid _ _ (hdone.append (.skip hd .nil))
      rwa [List.append_assoc] at hnext
  | @insertion x o rest ss ho hrest ih =>
    intro done ss₀ hdone
    rcases List.cons_eq_append_iff.mp hsplit with ⟨rfl, hhead⟩ | ⟨mid, rfl, hmid⟩
    · obtain ⟨rfl, -⟩ := List.cons.inj hhead
      cases (closing?_of_inserts ho).symm.trans hf
    · have hnext := ih hmid _ _ (hdone.append (.insertion ho .nil))
      rwa [List.append_assoc] at hnext
  | @block x e stop₁ isMarker₁ inner marks rest s ss hc hin he hclose hrest ih =>
    intro done ss₀ hdone
    rcases List.cons_eq_append_iff.mp hsplit with ⟨rfl, hhead⟩ | ⟨mid, rfl, hmid⟩
    · obtain ⟨rfl, rfl⟩ := List.cons.inj hhead
      cases hc.symm.trans hf
      exact Or.inl ⟨e, by simp, he⟩
    · rcases cut_cases hmid with ⟨mid', rfl, rfl⟩ | ⟨rfl, rfl, rfl⟩ | ⟨mid', rfl, hmid'⟩
      · rcases hin.matched hr hf (.outer hdone hc .nil) rfl with ⟨g', hg', hstop⟩ | hmark
        · exact Or.inl ⟨g', List.mem_append_left _ hg', hstop⟩
        · rw [List.append_assoc] at hmark
          exact Or.inr hmark
      · exact absurd he (hr f x hf hc)
      · have hnext := ih hmid' _ _ (hdone.append (.block hc hin he hclose .nil))
        simp only [List.cons_append, List.nil_append, List.append_assoc] at hnext ⊢
        exact hnext

end matched

/-! ## Missing ends -/

/-- The failure tells that the block that `g` started is still open when all fields are read. -/
def MissesEnd (r : Registry) (t : Tree) (fields : List Field) (e : Failure) : Prop :=
  ∃ g stop isMarker, Opened r t fields g stop isMarker ∧ e = Failure.template (.missingEnd g.expression stop) g.span

/-- Where fields are left to an open block, a missing end is that of a block open at their end. -/
theorem missesEnd_of_takeUntil {done fields : List Field} {g : Field} {stop : String} {isMarker : String → Bool}
    (hopen : Opened r t done g stop isMarker) (h : takeUntil r t g stop isMarker l fields = .error e) (he : e.LacksEnd) :
    MissesEnd r t (done ++ fields) e := by
  obtain ⟨n, hn⟩ : ∃ n, fields.length = n := ⟨_, rfl⟩
  induction n using Nat.strongRecOn generalizing done g stop isMarker l fields with
  | ind n ih =>
    cases fields with
    | nil =>
      rw [takeUntil] at h
      cases h
      exact ⟨g, stop, isMarker, by rwa [List.append_nil], rfl⟩
    | cons f fields =>
      rw [List.length_cons] at hn
      rw [takeUntil] at h
      split at h
      · cases h
      · next hs =>
        split at h
        · next hm =>
          obtain hu | ⟨taken, -, h⟩ := bind_eq_error.mp h
          · have hnext := ih fields.length (by omega) (hopen.extend (.mark hs hm .nil)) hu rfl
            rwa [List.append_assoc] at hnext
          · cases h
        · next hm =>
          rw [Bool.not_eq_true] at hm
          obtain hf | ⟨⟨s?, l₁, left⟩, hf, h⟩ := bind_eq_error.mp h
          · -- the field starts a block that is not ended
            obtain ⟨stop', isMarker', hc, hu⟩ := takeUntil_of_takeField_lacks_end hf he
            have hnext := ih fields.length (by omega) (hopen.start hs hm hc) hu rfl
            rwa [List.append_assoc] at hnext
          · have hle := left.2
            obtain hu | ⟨taken, -, h⟩ := bind_eq_error.mp h
            · cases hc : closing? r f with
              | none =>
                rw [takeField_nested_of_none fields hc] at hf
                cases hf
                have hnext := ih fields.length (by omega) (hopen.extend (.lone hs hm hc .nil)) hu rfl
                rwa [List.append_assoc] at hnext
              | some closing =>
                obtain ⟨stop', isMarker'⟩ := closing
                obtain ⟨marks', stopField, l₀, s, huntil, hclose, -, rfl⟩ := (takeField_eq_ok hc).mp hf
                obtain ⟨inner, hi, hstop, hfill, -⟩ := takeUntil_eq_ok huntil
                have hnext := ih left.1.length (by omega) (hopen.extend (.block hs hm hc hfill hstop hclose .nil)) hu rfl
                have hall : f :: inner ++ [stopField] ++ left.1 = f :: fields := by simp [hi]
                rwa [List.append_assoc, hall] at hnext
            · cases h

/-- A build that misses an end has read all fields, with a block open. -/
theorem missesEnd_of_takeAll {done fields : List Field} {ss : List Statement} (hdone : Outlined r t done ss)
    (h : takeAll r t l fields = .error e) (he : e.LacksEnd) : MissesEnd r t (done ++ fields) e := by
  obtain ⟨n, hn⟩ : ∃ n, fields.length = n := ⟨_, rfl⟩
  induction n using Nat.strongRecOn generalizing done l fields ss with
  | ind n ih =>
    cases fields with
    | nil => rw [takeAll] at h; cases h
    | cons f fields =>
      rw [List.length_cons] at hn
      rw [takeAll] at h
      obtain hf | ⟨⟨s?, l₁, left⟩, hf, h⟩ := bind_eq_error.mp h
      · obtain ⟨stop, isMarker, hc, hu⟩ := takeUntil_of_takeField_lacks_end hf he
        have hnext := missesEnd_of_takeUntil (.outer hdone hc .nil) hu he
        rwa [List.append_assoc] at hnext
      · have hle := left.2
        obtain hrest | ⟨made, -, h⟩ := bind_eq_error.mp h
        · cases hc : closing? r f with
          | none =>
            obtain ⟨-, rfl, hone⟩ := (takeField_top_of_none hc).mp hf
            have hlone : ∃ ss', Outlined r t [f] ss' := by
              rcases hone with ⟨-, hd⟩ | ⟨o, ho, -⟩
              · exact ⟨[], .skip hd .nil⟩
              · exact ⟨_, .insertion ho .nil⟩
            obtain ⟨ss', hlone⟩ := hlone
            have hnext := ih fields.length (by omega) (hdone.append hlone) hrest rfl
            rwa [List.append_assoc] at hnext
          | some closing =>
            obtain ⟨stop, isMarker⟩ := closing
            obtain ⟨marks, stopField, l₂, s, huntil, hclose, -, rfl⟩ := (takeField_eq_ok hc).mp hf
            obtain ⟨inner, hi, hstop, hfill, -⟩ := takeUntil_eq_ok huntil
            have hnext := ih left.1.length (by omega) (hdone.append (.block hc hfill hstop hclose .nil)) hrest rfl
            have hall : f :: inner ++ [stopField] ++ left.1 = f :: fields := by simp [hi]
            rwa [List.append_assoc, hall] at hnext
        · cases h

/-- A field that starts a block by one of the stock handlers, is not taken for a branch mark of
    the conditional around it, and has no end behind it makes the build fail. And if a build
    fails for a missing end, one of the fields asks for that end, the failure tells its text and
    its place, and all fields behind it are branch marks and whole groups, none of them the end. -/
theorem unmatched_opening (t : Tree) (fields : List Field) :
    (∀ before f after stop isMarker, fields = before ++ f :: after → closing? Registry.stock f = some (stop, isMarker) →
      (∀ g ∈ after, g.expression ≠ stop) → ¬ MarkAt Registry.stock t before f →
      ∃ e, ofFields Registry.stock t fields = .error e) ∧
    ∀ e start stop, ofFields Registry.stock t fields = .error e → e.cause = .template (.missingEnd start stop) →
      ∃ before f after isMarker marks, fields = before ++ f :: after ∧ f.expression = start ∧
        closing? Registry.stock f = some (stop, isMarker) ∧ e.span = (if f.span.isEmpty then none else some f.span) ∧
        Filled Registry.stock t stop isMarker after marks := by
  refine ⟨?_, ?_⟩
  · intro before f after stop isMarker hsplit hc hno hmark
    cases hbuild : ofFields Registry.stock t fields with
    | error e => exact ⟨e, rfl⟩
    | ok made =>
      rcases (outlined_of_takeAll hbuild).matched (fun _ _ => Directive.ne_stop_of_closing) hc hsplit with ⟨g, hg, hstop⟩ | hm
      · exact absurd hstop (hno g hg)
      · exact absurd hm hmark
  · intro e start stop hbuild hcause
    obtain ⟨g, stop', isMarker, hopen, rfl⟩ := missesEnd_of_takeAll .nil hbuild ⟨start, stop, hcause⟩
    cases (Failure.cause_template _ _).symm.trans hcause
    obtain ⟨front, inner, marks, hsplit, hc, hfill⟩ := hopen.exists_filled
    exact ⟨front, g, inner, isMarker, marks, hsplit, rfl, hc, Failure.span_template _ _, hfill⟩

/-! ## Crossing loops, and a mark that starts a loop -/

namespace UnmatchedFields

def field (directive : String) (span : Span) : Node :=
  ⟨.element Word.simpleField [(Word.fieldInstruction, "MERGEFIELD " ++ directive)], some 1, [], span⟩

def fieldAt (marker : NodeId) (directive : String) (span : Span) : Field :=
  ⟨marker, directive, marker, [], .simple, true, span⟩

/-- An inner loop that is not ended, before the end of the outer one. -/
def crossing : Tree := ⟨#[⟨.container, none, [1], .none⟩, ⟨.element Word.paragraph [], some root, [2, 3, 4], ⟨0, 145⟩⟩,
  field "l:each(i)" ⟨5, 50⟩, field "m:each(j)" ⟨50, 95⟩, field "l:endEach" ⟨95, 139⟩]⟩

/-- What could start a loop stands where a conditional has its branch marks. -/
def marked : Tree := ⟨#[⟨.container, none, [1], .none⟩, ⟨.element Word.paragraph [], some root, [2, 3, 4], ⟨0, 147⟩⟩,
  field "c:if" ⟨5, 45⟩, field "x:elsif(l:each(i)" ⟨45, 98⟩, field "c:endIf" ⟨98, 141⟩]⟩

def marker (type : MarkerType) (span : Span) : Node :=
  ⟨.element Word.fieldChar [(Word.fieldCharType, type.value)], some root, [], span⟩

/-- A field whose markers stand in nothing but the document itself. -/
def bare : Tree := ⟨#[⟨.container, none, [1, 2, 4, 5], .none⟩, marker .opening ⟨0, 34⟩,
  ⟨.element Word.instructionText [], some root, [3], ⟨34, 81⟩⟩, ⟨.text "MERGEFIELD x:each(i)", some 2, [], ⟨47, 67⟩⟩,
  marker .separator ⟨81, 118⟩, marker .closing ⟨118, 150⟩]⟩

def choice : Field := fieldAt 2 "c:if" ⟨5, 45⟩

def secondBranch : Field := fieldAt 3 "x:elsif(l:each(i)" ⟨45, 98⟩

def choiceEnd : Field := fieldAt 4 "c:endIf" ⟨98, 141⟩

theorem fields_crossing : crossing.fields root =
    [fieldAt 2 "l:each(i)" ⟨5, 50⟩, fieldAt 3 "m:each(j)" ⟨50, 95⟩, fieldAt 4 "l:endEach" ⟨95, 139⟩] := by cbv

theorem fields_marked : marked.fields root = [choice, secondBranch, choiceEnd] := by cbv

/-- The conditional has the field for its second branch. -/
theorem exists_outlined_marked : ∃ ss, Outlined Registry.stock marked (choice :: [secondBranch] ++ [choiceEnd]) ss := by
  have hd : Registry.stock.directive choice.expression = .conditional ⟨"c", none⟩ := by cbv
  have hstart : closing? Registry.stock choice = some ("c:endIf", Directive.isBranchMarker "c") := by
    rw [closing?, hd]
    rfl
  have hmark : Directive.isBranchMarker "c" secondBranch.expression = true := by decide
  have hstop : secondBranch.expression ≠ "c:endIf" := by decide
  have hfill : Filled Registry.stock marked "c:endIf" (Directive.isBranchMarker "c") [secondBranch] [secondBranch] :=
    .mark hstop hmark .nil
  have hfirst : Block.resolve? marked choice secondBranch = some ⟨.inline, choice, secondBranch, 2, 3, []⟩ := by decide +kernel
  have hsecond : Block.resolve? marked secondBranch choiceEnd = some ⟨.inline, secondBranch, choiceEnd, 3, 4, []⟩ := by
    decide +kernel
  have hguard : ⟨"x", some "l:each(i"⟩ = (Directive.elsif? secondBranch.expression).getD ⟨secondBranch.expression, none⟩ := by
    decide
  have helse : secondBranch.expression ≠ Directive.elseMarker "c" := by decide
  have hx : Operand.parse "x" = .ok ⟨"x", []⟩ := by cbv
  have hc : Operand.parse "c" = .ok ⟨"c", []⟩ := by cbv
  have hbranched : Branched marked "c" secondBranch [choiceEnd]
      [⟨⟨"x", []⟩, some "l:each(i", ⟨.inline, secondBranch, choiceEnd, 3, 4, []⟩⟩] none :=
    .more helse hguard hx hsecond .done
  have hcloses : Closes marked choice (.conditional ⟨"c", none⟩) [secondBranch] choiceEnd
      (.choice [⟨⟨"c", []⟩, none, ⟨.inline, choice, secondBranch, 2, 3, []⟩⟩,
        ⟨⟨"x", []⟩, some "l:each(i", ⟨.inline, secondBranch, choiceEnd, 3, 4, []⟩⟩] none) :=
    .choice hc hfirst hbranched
  rw [← hd] at hcloses
  exact ⟨_, .block hstart hfill rfl hcloses .nil⟩

end UnmatchedFields

open UnmatchedFields in
/-- The inner loop takes the end of the outer one for a field of its own, and is told. -/
theorem crossing_loop_told : (∃ e, ofFields Registry.stock crossing (crossing.fields root) = .error e) ∧
    ∃ e, ofFields Registry.stock crossing (crossing.fields root) = .error e ∧
      e.cause = .template (.missingEnd "m:each(j)" "m:endEach") ∧ ∃ f ∈ crossing.fields root, e.span = some f.span := by
  rw [fields_crossing]
  obtain ⟨hfails, htells⟩ := unmatched_opening crossing
    [fieldAt 2 "l:each(i)" ⟨5, 50⟩, fieldAt 3 "m:each(j)" ⟨50, 95⟩, fieldAt 4 "l:endEach" ⟨95, 139⟩]
  have hinner : closing? Registry.stock (fieldAt 3 "m:each(j)" ⟨50, 95⟩) = some ("m:endEach", fun _ => false) := by cbv
  have houter : closing? Registry.stock (fieldAt 2 "l:each(i)" ⟨5, 50⟩) = some ("l:endEach", fun _ => false) := by cbv
  have hplain : ¬ MarkAt Registry.stock crossing [fieldAt 2 "l:each(i)" ⟨5, 50⟩] (fieldAt 3 "m:each(j)" ⟨50, 95⟩) := by
    refine not_markAt fun g hg stop isMarker hc => ?_
    obtain rfl := List.mem_singleton.mp hg
    cases houter.symm.trans hc
    rfl
  have hbuild : ofFields Registry.stock crossing
      [fieldAt 2 "l:each(i)" ⟨5, 50⟩, fieldAt 3 "m:each(j)" ⟨50, 95⟩, fieldAt 4 "l:endEach" ⟨95, 139⟩] =
      .error ⟨.template (.missingEnd "m:each(j)" "m:endEach"), some ⟨50, 95⟩, 0⟩ := by cbv
  obtain ⟨before, f, after, -, -, hsplit, -, -, hspan, -⟩ := htells _ _ _ hbuild rfl
  refine ⟨hfails _ _ _ _ _ rfl hinner (by decide) hplain, _, hbuild, rfl, f, by rw [hsplit]; simp, ?_⟩
  split at hspan
  · cases hspan
  · exact hspan

open UnmatchedFields in
/-- A conditional takes the start of a loop for a branch mark. The loop's end is nowhere, and
    the build goes through. And what is told of a field without a place has no place. -/
theorem opening_taken_for_mark : (marked.WellFormed ∧ ∃ before f after stop isMarker, marked.fields root = before ++ f :: after ∧
      closing? Registry.stock f = some (stop, isMarker) ∧ (∀ g ∈ after, g.expression ≠ stop) ∧
      ∃ made, ofFields Registry.stock marked (marked.fields root) = .ok made) ∧
    bare.WellFormed ∧ ∃ e start stop, ofFields Registry.stock bare (bare.fields root) = .error e ∧
      e.cause = .template (.missingEnd start stop) ∧ ∀ f ∈ bare.fields root, e.span ≠ some f.span := by
  refine ⟨⟨wellFormed_of_earlier (by decide) (by decide) (by decide), [choice], secondBranch, [choiceEnd], "x:elsif(l:endEach",
    fun _ => false, fields_marked, by cbv, by decide, ?_⟩, wellFormed_of_earlier (by decide) (by decide) (by decide), ?_⟩
  · obtain ⟨ss, houtlined⟩ := exists_outlined_marked
    obtain ⟨l, hbuild⟩ := ofFields_iff.mpr houtlined
    rw [fields_marked]
    exact ⟨(ss, l), hbuild⟩
  · have hbuild : ofFields Registry.stock bare (bare.fields root) =
        .error ⟨.template (.missingEnd "x:each(i)" "x:endEach"), none, 0⟩ := by cbv
    refine ⟨_, _, _, hbuild, rfl, fun f _ hspan => ?_⟩
    cases hspan

end Outline

end MailMerge
