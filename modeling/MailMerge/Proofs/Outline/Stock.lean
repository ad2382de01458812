/-
  MailMerge.Proofs.Outline.Stock — how the stock handlers start and end their blocks.

  Four of the five stock handlers start blocks. The expression that starts one closes with a
  parenthesis or with a word, and so does the text that has to end it, but these words are
  others.

  Proved: no expression that starts a block is the one that ends a block, of whatever kind the
  two are (`ne_stop_of_closing`).
-/

import MailMerge.Proofs.Markup.Cuts
import MailMerge.Proofs.Outline.Groups

namespace MailMerge

open MailMerge.Text

namespace Directive

/-- What a stock handler that starts blocks reads in an expression. -/
inductive Starts (e : String) : Directive → Prop
  | loop {list iterator : String} : each? e = some (list, iterator) → Starts e (.loop list iterator (loopEnd list))
  | conditional {guard : Guard} : if? e = some guard → Starts e (.conditional guard)
  | picture {name : String} : picture? e = some name → Starts e (.picture name)
  | comment : e = commentStart → Starts e .comment

theorem starts_of_closing {e : String} {closing : String × (String → Bool)}
    (h : (Registry.stock.directive e).closing? = some closing) : Starts e (Registry.stock.directive e) := by
  unfold Registry.directive Registry.handlerFor? at h ⊢
  cases hf : Registry.stock.handlers.find? fun entry => entry.2.accepts e with
  | none => rw [hf] at h; cases h
  | some entry =>
    rw [hf] at h
    have haccepts := List.find?_some hf
    have hmem : entry ∈ [Handler.insertion, .each, .conditional, .picture, .comment].map fun h => (h.label, h) :=
      List.mem_of_find?_eq_some hf
    simp only [List.map_cons, List.map_nil, List.mem_cons, List.not_mem_nil, or_false] at hmem
    rcases hmem with rfl | rfl | rfl | rfl | rfl
    · cases h
    · show Starts e (Handler.each.reads e)
      simp only [Handler.each, Handler.ofReader] at haccepts ⊢
      cases hd : each? e with
      | none => rw [hd] at haccepts; cases haccepts
      | some found => exact .loop hd
    · show Starts e (Handler.conditional.reads e)
      simp only [Handler.conditional, Handler.ofReader] at haccepts ⊢
      cases hd : if? e with
      | none => rw [hd] at haccepts; cases haccepts
      | some guard => exact .conditional hd
    · show Starts e (Handler.picture.reads e)
      simp only [Handler.picture, Handler.ofReader] at haccepts ⊢
      cases hd : picture? e with
      | none => rw [hd] at haccepts; cases haccepts
      | some name => exact .picture hd
    · exact .comment (beq_iff_eq.mp haccepts)

/-! ## The last letters -/

theorem suffix_of_call {mark : List Char} {isArgument : List Char → Bool} {cs : List Char} {found : String × String}
    (h : call? mark isArgument cs = some found) : [')'] <:+ cs := by
  simp only [call?, Option.bind_eq_bind, Option.bind_eq_some_iff] at h
  obtain ⟨inner, hinner, -⟩ := h
  rw [before?] at hinner
  split at hinner
  · next hlast =>
    obtain ⟨front, rfl⟩ := List.getLast?_eq_some_iff.mp hlast
    exact List.suffix_append front _
  · cases hinner

theorem suffix_of_suffixed {word cs : List Char} {name : String} (h : suffixed? word cs = some name) : word <:+ cs := by
  simp only [suffixed?, Option.bind_eq_bind, Option.bind_eq_some_iff] at h
  obtain ⟨rest, hrest, -⟩ := h
  have hcs : cs = rest.reverse ++ word := by
    rw [← List.reverse_reverse cs, after?_eq_some_iff.mp hrest, List.reverse_append, List.reverse_reverse]
  exact hcs ▸ List.suffix_append _ _

theorem suffix_of_guard {word : List Char} {e : String} {guard : Guard} (h : guard? word e = some guard) :
    [')'] <:+ e.toList ∨ word <:+ e.toList := by
  unfold guard? at h
  split at h
  · next hcall => exact Or.inl (suffix_of_call hcall)
  · obtain ⟨name, hname, -⟩ := Option.map_eq_some_iff.mp h
    exact Or.inr (suffix_of_suffixed hname)

theorem suffix_of_picture {e name : String} (h : picture? e = some name) : [':', 's', 't', 'a', 'r', 't'] <:+ e.toList := by
  unfold picture? at h
  split at h
  · next rest he =>
    rw [he]
    exact (suffix_of_suffixed (Option.filter_eq_some_iff.mp h).1).trans (List.suffix_cons _ rest)
  · cases h

/-- The words that expressions close with that start a block, but for those of comments. -/
def startWords : List (List Char) := [[')'], [':', 'i', 'f'], [':', 's', 't', 'a', 'r', 't']]

/-- The words that expressions close with that end a block, but for those of comments. -/
def stopWords : List (List Char) :=
  [[':', 'e', 'n', 'd', 'E', 'a', 'c', 'h'], [':', 'e', 'n', 'd', 'I', 'f'], [':', 'e', 'n', 'd']]

theorem Starts.closes {e : String} {d : Directive} (h : Starts e d) :
    e = commentStart ∨ ∃ word ∈ startWords, word <:+ e.toList := by
  cases h with
  | loop h => exact Or.inr ⟨[')'], by decide, suffix_of_call h⟩
  | conditional h =>
    rcases suffix_of_guard h with h | h
    · exact Or.inr ⟨[')'], by decide, h⟩
    · exact Or.inr ⟨[':', 'i', 'f'], by decide, h⟩
  | picture h => exact Or.inr ⟨[':', 's', 't', 'a', 'r', 't'], by decide, suffix_of_picture h⟩
  | comment h => exact Or.inl h

theorem Starts.stop_closes {e stop : String} {isMarker : String → Bool} {d : Directive} (h : Starts e d)
    (hc : d.closing? = some (stop, isMarker)) : stop = commentEnd ∨ ∃ word ∈ stopWords, word <:+ stop.toList := by
  have hword : ∀ (name : String) (word : List Char), word <:+ (name ++ String.ofList word).toList := fun name word => by
    rw [String.toList_append, String.toList_ofList]
    exact List.suffix_append _ _
  cases h with
  | @loop list => cases hc; exact Or.inr ⟨_, by decide, hword list [':', 'e', 'n', 'd', 'E', 'a', 'c', 'h']⟩
  | @conditional guard => cases hc; exact Or.inr ⟨_, by decide, hword guard.name [':', 'e', 'n', 'd', 'I', 'f']⟩
  | @picture name => cases hc; exact Or.inr ⟨_, by decide, hword ("@" ++ name) [':', 'e', 'n', 'd']⟩
  | comment => cases hc; exact Or.inl rfl

/-- What starts a block does not end one. -/
theorem ne_stop_of_closing {e e' stop : String} {isMarker : String → Bool} {closing : String × (String → Bool)}
    (h : (Registry.stock.directive e).closing? = some closing)
    (h' : (Registry.stock.directive e').closing? = some (stop, isMarker)) : e ≠ stop := by
  rintro rfl
  rcases (starts_of_closing h).closes with rfl | ⟨word, hword, hsuffix⟩ <;>
    rcases (starts_of_closing h').stop_closes h' with he | ⟨word', hword', hsuffix'⟩
  · exact absurd he (by decide)
  · have hnone : ∀ w ∈ stopWords, ¬ w <:+ commentStart.toList := by decide
    exact hnone word' hword' hsuffix'
  · have hnone : ∀ w ∈ startWords, ¬ w <:+ commentEnd.toList := by decide
    exact hnone word hword (he ▸ hsuffix)
  · -- of two words at the end of one text the shorter is at the end of the longer
    have hnone : ∀ w ∈ startWords, ∀ w' ∈ stopWords, ¬ (w <:+ w' ∨ w' <:+ w) := by decide
    exact hnone word hword word' hword' (List.suffix_or_suffix_of_suffix hsuffix hsuffix')

end Directive

end MailMerge
