/-
  MailMerge.Proofs.Outline.Faults — which field a failing build is about.

  The builder gives up at the first thing that is wrong: a start without its end, two fields
  that enclose nothing, a branch behind the else branch, or an operand that cannot be read. The
  failure quotes a text of the field that is at fault, and has that field's place.

  Proved: a build that fails names a field of the scan and tells its span (`ofFields_eq_error`),
  at whatever depth it was when it gave up.
-/

import MailMerge.Proofs.Outline.Groups

namespace MailMerge

@[simp] theorem Failure.cause_locatedAt (e : Failure) (span : Span) : (e.locatedAt span).cause = e.cause := by
  unfold locatedAt
  split <;> rfl

/-- The texts of a directive that are read as operands. -/
def Directive.operandTexts : Directive → List String
  | .insertion text => [text]
  | .loop list _ _ => [list]
  | .conditional guard => [guard.name]
  | .picture name => [name]
  | .value _ | .comment | .nothing => []

/-- The texts of a field that may be read as operands: those of its directive, and the name
    behind which it begins another branch. -/
def Field.operandTexts (r : Registry) (f : Field) : List String :=
  (r.directive f.expression).operandTexts ++ ((Directive.elsif? f.expression).map (·.name)).toList

/-- The fault is about the field. -/
inductive TemplateFault.Concerns (r : Registry) (f : Field) : TemplateFault → Prop
  | missingEnd (stop : String) : Concerns r f (.missingEnd f.expression stop)
  | unresolvable (stop : String) : Concerns r f (.unresolvable f.expression stop)
  | misplacedBranch (start : String) : Concerns r f (.misplacedBranch start f.expression)
  | invalidOperand {text : String} {error : OperandError} : text ∈ f.operandTexts r → Operand.parse text = .error error →
      Concerns r f (.invalidOperand error)

namespace Outline

/-- The failure tells a fault of one of the fields, at that field's place. -/
def Blames (r : Registry) (fields : List Field) (e : Failure) : Prop :=
  ∃ f ∈ fields, ∃ fault : TemplateFault, fault.Concerns r f ∧ e = Failure.template fault f.span

variable {r : Registry} {t : Tree} {e : Failure}

theorem Blames.mono {fields fields' : List Field} (h : Blames r fields e) (hsub : fields ⊆ fields') : Blames r fields' e := by
  obtain ⟨f, hf, fault, hfault, he⟩ := h
  exact ⟨f, hsub hf, fault, hfault, he⟩

theorem bind_eq_error {ε α β : Type} {x : Except ε α} {f : α → Except ε β} {e : ε} :
    (x >>= f) = .error e ↔ x = .error e ∨ ∃ a, x = .ok a ∧ f a = .error e := by
  cases x with
  | error e' => simp [bind, Except.bind]
  | ok a => simp [bind, Except.bind]

theorem operand_eq_error {f : Field} {text : String} (htext : text ∈ f.operandTexts r) (h : operand f text = .error e) :
    Blames r [f] e := by
  rw [operand] at h
  cases hp : Operand.parse text with
  | ok o => rw [hp] at h; cases h
  | error error =>
    rw [hp] at h
    cases h
    exact ⟨f, List.mem_singleton_self f, _, .invalidOperand htext hp, rfl⟩

theorem enclose_eq_error {nested : Bool} {l : Ledger} {start stop : Field} (h : enclose t nested l start stop = .error e) :
    Blames r [start] e := by
  rw [enclose, Block.enclose] at h
  cases hb : Block.resolve? t start stop with
  | some b => rw [hb] at h; cases h
  | none =>
    rw [hb] at h
    cases h
    exact ⟨start, List.mem_singleton_self start, _, .unresolvable stop.expression, rfl⟩

theorem branch_eq_error {nested : Bool} {l : Ledger} {guard : Guard} {start stop : Field}
    (hguard : guard.name ∈ start.operandTexts r) (h : branch t nested l guard start stop = .error e) : Blames r [start] e := by
  rw [branch, bind_eq_error] at h
  obtain ho | ⟨o, -, h⟩ := h
  · exact operand_eq_error hguard ho
  · rw [bind_eq_error] at h
    obtain hb | ⟨b, -, h⟩ := h
    · exact enclose_eq_error hb
    · cases h

theorem mem_operandTexts_of_elsif {f : Field} {guard : Guard} (h : Directive.elsif? f.expression = some guard) :
    guard.name ∈ f.operandTexts r := by
  rw [Field.operandTexts, h]
  exact List.mem_append_right _ List.mem_cons_self

/-- Behind the first branch each marker is read as another one, up to an else. -/
theorem branches_eq_error {nested : Bool} {opening : Field} {name : String} {l : Ledger} {otherwise : Option Block}
    {start : Field} {marks : List Field}
    (hmark : ∀ m ∈ (start :: marks).dropLast, Directive.isBranchMarker name m.expression = true)
    (h : branches t nested opening name l otherwise start marks = .error e) : Blames r (start :: marks).dropLast e := by
  induction marks generalizing start l otherwise with
  | nil => cases h
  | cons stop marks ih =>
    have htail : (stop :: marks).dropLast ⊆ (start :: stop :: marks).dropLast := by
      rw [List.dropLast_cons_cons]
      exact List.subset_cons_self _ _
    have hhead : [start] ⊆ (start :: stop :: marks).dropLast := by
      rw [List.dropLast_cons_cons]
      exact List.cons_subset_cons start (List.nil_subset _)
    have hmark' : ∀ m ∈ (stop :: marks).dropLast, Directive.isBranchMarker name m.expression = true :=
      fun m hm => hmark m (htail hm)
    rw [branches] at h
    split at h
    · cases h
      exact ⟨start, hhead List.mem_cons_self, _, .misplacedBranch opening.expression, rfl⟩
    · split at h
      · rw [bind_eq_error] at h
        obtain hb | ⟨b, -, h⟩ := h
        · exact (enclose_eq_error hb).mono hhead
        · exact (ih hmark' h).mono htail
      · next helse =>
        have hguard : ((Directive.elsif? start.expression).getD ⟨start.expression, none⟩).name ∈ start.operandTexts r := by
          have := hmark start (hhead List.mem_cons_self)
          rw [Directive.isBranchMarker, Bool.or_eq_true, beq_iff_eq] at this
          obtain ⟨guard, hguard⟩ := Option.isSome_iff_exists.mp (this.resolve_left helse)
          rw [hguard]
          exact mem_operandTexts_of_elsif hguard
        rw [bind_eq_error] at h
        obtain hb | ⟨c, -, h⟩ := h
        · exact (branch_eq_error hguard hb).mono hhead
        · rw [bind_eq_error] at h
          obtain hb | ⟨more, -, h⟩ := h
          · exact (ih hmark' hb).mono htail
          · cases h

theorem conditional_eq_error {nested : Bool} {l : Ledger} {f stop : Field} {guard : Guard} {markers : List Field}
    (hguard : guard.name ∈ f.operandTexts r) (hmark : ∀ m ∈ markers, Directive.isBranchMarker guard.name m.expression = true)
    (h : conditional t nested l f guard markers stop = .error e) : Blames r (f :: markers) e := by
  rw [conditional, bind_eq_error] at h
  obtain hb | ⟨c, -, h⟩ := h
  · exact (branch_eq_error hguard hb).mono (by simp)
  · cases markers with
    | nil => cases h
    | cons m ms =>
      rw [bind_eq_error] at h
      have hdrop : (m :: (ms ++ [stop])).dropLast = m :: ms := by
        rw [← List.cons_append]
        exact List.dropLast_concat
      obtain hb | ⟨more, -, h⟩ := h
      · exact (branches_eq_error (hdrop.symm ▸ hmark) hb).mono (by rw [hdrop]; exact List.subset_cons_self _ _)
      · cases h

/-- Nothing is left to take but fields that were there. -/
theorem rest_subset_of_takeField {nested insertions : Bool} {l l' : Ledger} {f : Field} {fields : List Field}
    {s? : Option Statement} {rest : Rest fields} (h : takeField r t nested insertions l f fields = .ok (s?, l', rest)) :
    rest.1 ⊆ fields := by
  cases hc : closing? r f with
  | some closing =>
    obtain ⟨stop, isMarker⟩ := closing
    obtain ⟨marks, e, l₁, s, huntil, -, -, -⟩ := (takeField_eq_ok hc).mp h
    obtain ⟨inner, hsplit, -, -, -⟩ := takeUntil_eq_ok huntil
    intro g hg
    rw [hsplit]
    exact List.mem_append_right inner (List.mem_cons_of_mem e hg)
  | none =>
    cases insertions with
    | false =>
      rw [takeField_nested_of_none fields hc] at h
      cases h
      exact List.Subset.refl fields
    | true =>
      obtain ⟨-, rfl, -⟩ := (takeField_top_of_none hc).mp h
      exact List.Subset.refl fields

theorem marks_subset_of_takeUntil {start : Field} {stop : String} {isMarker : String → Bool} {l l' : Ledger}
    {fields marks : List Field} {stopField : Field} {rest : Rest fields}
    (h : takeUntil r t start stop isMarker l fields = .ok (marks, stopField, l', rest)) : marks ⊆ fields := by
  obtain ⟨inner, hsplit, -, hfill, -⟩ := takeUntil_eq_ok h
  rw [hsplit]
  exact List.Subset.trans hfill.marks_sublist.subset (List.subset_append_left inner _)

theorem takeField_eq_error {nested insertions : Bool} {l : Ledger} {f : Field} {fields : List Field}
    (huntil : ∀ stop isMarker, takeUntil r t f stop isMarker l fields = .error e → Blames r (f :: fields) e)
    (h : takeField r t nested insertions l f fields = .error e) : Blames r (f :: fields) e := by
  have hone : [f] ⊆ f :: fields := List.cons_subset_cons f (List.nil_subset fields)
  rw [takeField] at h
  cases hd : r.directive f.expression with
  | nothing => rw [hd] at h; cases h
  | value o => rw [hd] at h; cases h
  | insertion text =>
    simp only [hd] at h
    split at h
    · rw [bind_eq_error] at h
      obtain ho | ⟨o, -, h⟩ := h
      · exact (operand_eq_error (by simp [Field.operandTexts, hd, Directive.operandTexts]) ho).mono hone
      · cases h
    · cases h
  | loop list iterator stop =>
    simp only [hd] at h
    obtain hu | ⟨taken, -, h⟩ := bind_eq_error.mp h
    · exact huntil _ _ hu
    · obtain ho | ⟨o, -, h⟩ := bind_eq_error.mp h
      · exact (operand_eq_error (by simp [Field.operandTexts, hd, Directive.operandTexts]) ho).mono hone
      · obtain hb | ⟨b, -, h⟩ := bind_eq_error.mp h
        · exact (enclose_eq_error hb).mono hone
        · cases h
  | conditional guard =>
    simp only [hd] at h
    obtain hu | ⟨⟨markers, stopField, l', rest⟩, hu, h⟩ := bind_eq_error.mp h
    · exact huntil _ _ hu
    · obtain hb | ⟨made, -, h⟩ := bind_eq_error.mp h
      · have hguard : guard.name ∈ f.operandTexts r := by simp [Field.operandTexts, hd, Directive.operandTexts]
        exact (conditional_eq_error hguard (isMarker_of_takeUntil hu) hb).mono
          (List.cons_subset_cons f (marks_subset_of_takeUntil hu))
      · cases h
  | picture name =>
    simp only [hd] at h
    obtain hu | ⟨taken, -, h⟩ := bind_eq_error.mp h
    · exact huntil _ _ hu
    · obtain ho | ⟨o, -, h⟩ := bind_eq_error.mp h
      · exact (operand_eq_error (by simp [Field.operandTexts, hd, Directive.operandTexts]) ho).mono hone
      · obtain hb | ⟨b, -, h⟩ := bind_eq_error.mp h
        · exact (enclose_eq_error hb).mono hone
        · cases h
  | comment =>
    simp only [hd] at h
    obtain hu | ⟨taken, -, h⟩ := bind_eq_error.mp h
    · exact huntil _ _ hu
    · obtain hb | ⟨b, -, h⟩ := bind_eq_error.mp h
      · exact (enclose_eq_error hb).mono hone
      · cases h

/-- Whatever goes wrong before the end of a block is found is told at a field in front of it,
    and if no end is there, at the field that starts the block. -/
theorem takeUntil_eq_error {start : Field} {stop : String} {isMarker : String → Bool} {l : Ledger} {fields : List Field}
    (h : takeUntil r t start stop isMarker l fields = .error e) : Blames r (start :: fields) e := by
  obtain ⟨n, hn⟩ : ∃ n, fields.length = n := ⟨_, rfl⟩
  induction n using Nat.strongRecOn generalizing start stop isMarker l fields with
  | ind n ih =>
    cases fields with
    | nil =>
      rw [takeUntil] at h
      cases h
      exact ⟨start, List.mem_cons_self, _, .missingEnd stop, rfl⟩
    | cons f fields =>
      rw [List.length_cons] at hn
      have hskip : start :: fields ⊆ start :: f :: fields := List.cons_subset_cons start (List.subset_cons_self f fields)
      rw [takeUntil] at h
      split at h
      · cases h
      · split at h
        · obtain hu | ⟨taken, -, h⟩ := bind_eq_error.mp h
          · exact (ih fields.length (by omega) hu rfl).mono hskip
          · cases h
        · obtain hf | ⟨⟨s?, l₁, left⟩, hf, h⟩ := bind_eq_error.mp h
          · have := takeField_eq_error (fun stop isMarker hu => ih fields.length (by omega) hu rfl) hf
            exact this.mono (List.subset_cons_self start _)
          · have hle := left.2
            obtain hu | ⟨taken, -, h⟩ := bind_eq_error.mp h
            · refine (ih left.1.length (by omega) hu rfl).mono (List.Subset.trans ?_ hskip)
              exact List.cons_subset_cons start (rest_subset_of_takeField hf)
            · cases h

/-- A build that fails names a field that is at fault, and its place. -/
theorem ofFields_eq_error {fields : List Field} (h : ofFields r t fields = .error e) : Blames r fields e := by
  rw [ofFields] at h
  generalize Ledger.empty = l at h
  obtain ⟨n, hn⟩ : ∃ n, fields.length = n := ⟨_, rfl⟩
  induction n using Nat.strongRecOn generalizing l fields with
  | ind n ih =>
    cases fields with
    | nil => rw [takeAll] at h; cases h
    | cons f fields =>
      rw [List.length_cons] at hn
      rw [takeAll] at h
      obtain hf | ⟨⟨s?, l₁, left⟩, hf, h⟩ := bind_eq_error.mp h
      · exact takeField_eq_error (fun _ _ => takeUntil_eq_error) hf
      · have hle := left.2
        obtain hrest | ⟨made, -, h⟩ := bind_eq_error.mp h
        · have := ih left.1.length (by omega) l₁ hrest rfl
          exact this.mono (List.subset_cons_of_subset f (rest_subset_of_takeField hf))
        · cases h

end Outline

end MailMerge
