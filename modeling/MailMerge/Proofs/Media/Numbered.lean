/-
  MailMerge.Proofs.Media.Numbered — the ids that a collection of images gives.

  A history is the list of the images that are registered, one call after the other, with a
  collection that is empty at first. An image is known by its name and its data; the id that
  it may bring itself is kept with it, but nothing is decided by it. The i-th image that is
  kept has the id that ends in i, and no image is kept twice (`Numbered`). A call keeps this: it
  finds the image among those that are kept, or puts it behind them (`register_cases`).

  Proved: in every history two calls give the same id exactly if they were given the same image,
  and what is kept is numbered and only grows (`ids_identify`).
-/

import Mathlib
import MailMerge.Media

namespace MailMerge.Media

variable {stem : String} {images : List (String × Image)}

theorem sameImage_iff {a b : Image} : sameImage a b = true ↔ a.name = b.name ∧ a.data = b.data := by
  simp [sameImage]

/-! ## A call -/

/-- The ids count from 1, and no two entries have one name and one data. -/
structure Numbered (stem : String) (images : List (String × Image)) : Prop where
  id : ∀ i (h : i < images.length), images[i].1 = stem ++ toString (i + 1)
  distinct : images.Pairwise fun a b => sameImage a.2 b.2 = false

/-- A call finds the image and keeps all as it is, or puts it behind the others. -/
theorem register_cases (stem : String) (images : List (String × Image)) (image : Image) :
    (∃ known ∈ images, sameImage known.2 image = true ∧
      (collection stem images).register image = (known.1, collection stem images)) ∨
    ((∀ known ∈ images, sameImage known.2 image = false) ∧ (collection stem images).register image =
      (stem ++ toString (images.length + 1),
        collection stem (images ++ [(stem ++ toString (images.length + 1), image)]))) := by
  cases hfind : images.find? fun known => sameImage known.2 image with
  | some known =>
    have hsame := List.find?_some hfind
    exact .inl ⟨known, List.mem_of_find?_eq_some hfind, hsame, by rw [register, hfind]⟩
  | none =>
    refine .inr ⟨fun known hk => Bool.eq_false_iff.mpr (List.find?_eq_none.mp hfind known hk), ?_⟩
    rw [register, hfind]

namespace Numbered

theorem empty (stem : String) : Numbered stem [] := ⟨fun _ h => absurd h (Nat.not_lt_zero _), .nil⟩

theorem snoc (h : Numbered stem images) {image : Image} (hnew : ∀ known ∈ images, sameImage known.2 image = false) :
    Numbered stem (images ++ [(stem ++ toString (images.length + 1), image)]) where
  id i hi := by
    rcases Nat.lt_or_eq_of_le (Nat.le_of_lt_succ (by simpa using hi)) with hlt | rfl
    · rw [List.getElem_append_left hlt]
      exact h.id i hlt
    · simp
  distinct := List.pairwise_append.mpr ⟨h.distinct, List.pairwise_singleton _ _, by simpa using hnew⟩

/-- Decimals are told apart behind whatever stands in front of them. -/
theorem nodup_ids (h : Numbered stem images) : (images.map (·.1)).Nodup := by
  rw [List.nodup_iff_injective_get]
  intro i j hij
  simp only [List.get_eq_getElem, List.getElem_map] at hij
  rw [h.id, h.id, String.append_right_inj] at hij
  exact Fin.ext (Nat.succ.inj (Nat.repr_injective hij))

theorem nodup_images (h : Numbered stem images) : (images.map fun known => (known.2.name, known.2.data)).Nodup := by
  rw [List.Nodup, List.pairwise_map]
  refine h.distinct.imp fun {a b} hab he => ?_
  rw [sameImage_iff.mpr (Prod.mk.inj he)] at hab
  cases hab

/-- Of two entries one has the id of the other exactly if it has its image. -/
theorem id_eq_iff (h : Numbered stem images) {a b : String × Image} (ha : a ∈ images) (hb : b ∈ images) :
    a.1 = b.1 ↔ sameImage a.2 b.2 = true := by
  constructor
  · intro he
    rw [List.inj_on_of_nodup_map h.nodup_ids ha hb he]
    exact sameImage_iff.mpr ⟨rfl, rfl⟩
  · intro hs
    obtain ⟨hname, hdata⟩ := sameImage_iff.mp hs
    rw [List.inj_on_of_nodup_map h.nodup_images ha hb (Prod.ext hname hdata)]

end Numbered

/-! ## A history -/

/-- Registers the images one after the other: the ids that they get, and what is left. -/
def registerAll (m : Media) : List Image → List String × Media
  | [] => ([], m)
  | image :: rest => ((m.register image).1 :: ((m.register image).2.registerAll rest).1, ((m.register image).2.registerAll rest).2)

/-- An entry of the id, with an image of that name and data. -/
def Holds (images : List (String × Image)) (rid : String) (image : Image) : Prop :=
  ∃ known, (rid, known) ∈ images ∧ sameImage known image = true

theorem Holds.mono {later : List (String × Image)} {rid : String} {image : Image} (h : Holds images rid image)
    (hle : images <+: later) : Holds later rid image := by
  obtain ⟨known, hk, hs⟩ := h
  exact ⟨known, hle.subset hk, hs⟩

/-- A call gives the id of an entry of the image, and leaves a numbered collection. -/
theorem Numbered.register (h : Numbered stem images) (image : Image) : ∃ rid later,
    (collection stem images).register image = (rid, collection stem later) ∧ Numbered stem later ∧ images <+: later ∧
      Holds later rid image := by
  rcases register_cases stem images image with ⟨known, hk, hs, heq⟩ | ⟨hnew, heq⟩
  · exact ⟨_, _, heq, h, List.prefix_rfl, known.2, hk, hs⟩
  · exact ⟨_, _, heq, h.snoc hnew, List.prefix_append _ _, image, by simp, sameImage_iff.mpr ⟨rfl, rfl⟩⟩

/-- All ids that a history gives are, at its end, those of entries of the images. -/
theorem Numbered.registerAll (h : Numbered stem images) (calls : List Image) : ∃ rids later,
    (collection stem images).registerAll calls = (rids, collection stem later) ∧ Numbered stem later ∧ images <+: later ∧
      List.Forall₂ (fun image rid => Holds later rid image) calls rids := by
  induction calls generalizing images with
  | nil => exact ⟨[], images, rfl, h, List.prefix_rfl, .nil⟩
  | cons image rest ih =>
    obtain ⟨rid, next, hone, hnext, hgrown, hholds⟩ := h.register image
    obtain ⟨rids, later, hall, hlater, hmore, hrest⟩ := ih hnext
    refine ⟨rid :: rids, later, ?_, hlater, hgrown.trans hmore, .cons (hholds.mono hmore) hrest⟩
    rw [Media.registerAll, hone, hall]

theorem registerAll_append (m : Media) (earlier later : List Image) : m.registerAll (earlier ++ later) =
    ((m.registerAll earlier).1 ++ ((m.registerAll earlier).2.registerAll later).1,
      ((m.registerAll earlier).2.registerAll later).2) := by
  induction earlier generalizing m with
  | nil => rfl
  | cons image rest ih => rw [List.cons_append, registerAll, ih, registerAll, List.cons_append]

/-- The ids that the calls of a history gave. -/
def given (stem : String) (calls : List Image) : List String := ((collection stem []).registerAll calls).1

/-- The images that are kept at its end, with their ids. -/
def kept (stem : String) (calls : List Image) : List (String × Image) := ((collection stem []).registerAll calls).2.images

/-- In a history the ids stand for the images. -/
structure Identified (stem : String) (calls : List Image) : Prop where
  answered : (given stem calls).length = calls.length
  same : ∀ (i j : Nat) (a b : Image), calls[i]? = some a → calls[j]? = some b →
    ((given stem calls)[i]? = (given stem calls)[j]? ↔ a.name = b.name ∧ a.data = b.data)
  numbered : ∀ i (h : i < (kept stem calls).length), (kept stem calls)[i].1 = stem ++ toString (i + 1)
  distinct : ((kept stem calls).map (·.1)).Nodup
  once : ((kept stem calls).map fun known => (known.2.name, known.2.data)).Nodup
  /-- Whatever is called later, what is kept stays where it is. -/
  grows : ∀ later, kept stem calls <+: kept stem (calls ++ later)
  /-- One more call gives the id of an entry with the name and the data of its image. -/
  holds : ∀ image, ∃ rid known, given stem (calls ++ [image]) = given stem calls ++ [rid] ∧
    (rid, known) ∈ kept stem (calls ++ [image]) ∧ known.name = image.name ∧ known.data = image.data

theorem ids_identify (stem : String) (calls : List Image) : Identified stem calls := by
  obtain ⟨rids, images, hall, hnumbered, -, hholds⟩ := (Numbered.empty stem).registerAll calls
  have hgiven : given stem calls = rids := by rw [given, hall]
  have hkept : kept stem calls = images := by rw [kept, hall]; rfl
  have hlater : ∀ later, ∃ rids' images', (collection stem images).registerAll later = (rids', collection stem images') ∧
      images <+: images' ∧ given stem (calls ++ later) = rids ++ rids' ∧ kept stem (calls ++ later) = images' ∧
      List.Forall₂ (fun image rid => Holds images' rid image) later rids' := by
    intro later
    obtain ⟨rids', images', hmore, -, hgrown, hholds'⟩ := hnumbered.registerAll later
    refine ⟨rids', images', hmore, hgrown, ?_, ?_, hholds'⟩
    · rw [given, registerAll_append, hall, hmore]
    · rw [kept, registerAll_append, hall, hmore]
      rfl
  refine ⟨?_, fun i j a b hi hj => ?_, ?_, ?_, ?_, fun later => ?_, fun image => ?_⟩
  · rw [hgiven, hholds.length_eq]
  · rw [hgiven]
    obtain ⟨hfirst, rfl⟩ := List.getElem?_eq_some_iff.mp hi
    obtain ⟨hsecond, rfl⟩ := List.getElem?_eq_some_iff.mp hj
    have hlength := hholds.length_eq
    obtain ⟨known, hk, hs⟩ := hholds.get hfirst (hlength ▸ hfirst)
    obtain ⟨known', hk', hs'⟩ := hholds.get hsecond (hlength ▸ hsecond)
    obtain ⟨hname, hdata⟩ := sameImage_iff.mp hs
    obtain ⟨hname', hdata'⟩ := sameImage_iff.mp hs'
    rw [List.getElem?_eq_getElem (hlength ▸ hfirst), List.getElem?_eq_getElem (hlength ▸ hsecond), Option.some.injEq]
    refine (hnumbered.id_eq_iff hk hk').trans ?_
    rw [sameImage_iff, hname, hdata, hname', hdata']
    rfl
  · simpa only [hkept] using hnumbered.id
  · rw [hkept]
    exact hnumbered.nodup_ids
  · rw [hkept]
    exact hnumbered.nodup_images
  · obtain ⟨_, images', -, hgrown, -, hkept', -⟩ := hlater later
    rwa [hkept, hkept']
  · obtain ⟨rids', images', -, -, hgiven', hkept', hholds'⟩ := hlater [image]
    cases hholds' with
    | cons hone hnone =>
      cases hnone
      obtain ⟨known, hk, hs⟩ := hone
      obtain ⟨hname, hdata⟩ := sameImage_iff.mp hs
      exact ⟨_, known, hgiven ▸ hgiven', hkept' ▸ hk, hname, hdata⟩

namespace LogoTwice

def logo : Image := ⟨"logo.png", [137, 80], none⟩

def badge : Image := ⟨"badge.png", [137, 80], none⟩

/-- The logo comes again, with an id that it was given elsewhere. -/
def calls : List Image := [logo, badge, { logo with rid := some "rId7" }]

end LogoTwice

open LogoTwice in
theorem logo_identified : given "rIdMerge" calls = ["rIdMerge1", "rIdMerge2", "rIdMerge1"] ∧
    kept "rIdMerge" calls = [("rIdMerge1", logo), ("rIdMerge2", badge)] ∧ Identified "rIdMerge" calls :=
  ⟨by decide, by decide, ids_identify "rIdMerge" calls⟩

end MailMerge.Media
