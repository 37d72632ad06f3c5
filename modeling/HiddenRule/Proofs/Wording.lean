import HiddenRule.Grammar.Standard
import HiddenRule.Proofs.Building
import HiddenRule.Proofs.Templates

/-
  The texts of built fragments. Over a grammar whose templates ask for nothing
  but the texts of the children and of an attribute that is there, whatever is
  built is fully described, however deep it is; the standard grammar is worded
  in this way.
-/

namespace HiddenRule

/-- An alternative whose texts come out complete. -/
structure Alternative.Worded (a : Alternative) : Prop where
  singular : Text.Fits a.singularTemplate.toList a.slots.length a.attributes.isSome
  plural : Text.Fits a.pluralTemplate.toList a.slots.length a.attributes.isSome
  attributes : ∀ text ∈ a.attributes.getD [], Text.Complete text.toList
  slots_lt : a.slots.length < 10

instance : DecidablePred Alternative.Worded := fun a =>
  decidable_of_iff (Text.Fits a.singularTemplate.toList a.slots.length a.attributes.isSome ∧
      Text.Fits a.pluralTemplate.toList a.slots.length a.attributes.isSome ∧
      (∀ text ∈ a.attributes.getD [], Text.Complete text.toList) ∧ a.slots.length < 10)
    ⟨fun h => ⟨h.1, h.2.1, h.2.2.1, h.2.2.2⟩, fun h => ⟨h.singular, h.plural, h.attributes, h.slots_lt⟩⟩

def Grammar.Worded (g : Grammar) : Prop := ∀ c, ∀ a ∈ g.alternatives c, a.Worded

theorem Grammar.standard_worded : standard.Worded := by
  intro c
  cases c <;> decide +kernel

namespace Fragment

/-- A fragment with both its texts, and nothing in them left to replace. -/
structure Described (f : Fragment) : Prop where
  singular : Text.Complete f.singular.toList
  plural : Text.Complete f.plural.toList

/-- A text that an attribute gives stands in the list of attributes. -/
theorem mem_of_chosenAttribute_eq_ok {a : Alternative} {c : Category} {index choice : Nat}
    {chosen : Option String} (h : a.chosenAttribute c index choice = .ok chosen) :
    chosen.isSome = a.attributes.isSome ∧ ∀ text ∈ chosen, text ∈ a.attributes.getD [] := by
  unfold Alternative.chosenAttribute at h
  split at h
  · next hnone =>
    rw [hnone, ← Except.ok.inj h]
    simp
  · next texts htexts =>
    split at h
    · next text htext =>
      rw [htexts, ← Except.ok.inj h]
      simpa using List.mem_of_getElem? htext
    · contradiction

/-- A template that fits is filled in with the texts of described parts. -/
theorem complete_describe {template : String} {parts : List Fragment} {chosen : Option String}
    (hfits : Text.Fits template.toList parts.length chosen.isSome) (hlength : parts.length < 10)
    (hparts : ∀ f ∈ parts, f.Described) (hchosen : ∀ text ∈ chosen, Text.Complete text.toList) :
    Text.Complete (describe template parts chosen).toList := by
  rw [describe, String.toList_ofList]
  apply Text.Fits.complete_fill
  · rwa [List.length_map, Option.isSome_map]
  · rwa [List.length_map]
  · intro t ht
    obtain ⟨f, hf, rfl⟩ := List.mem_map.mp ht
    exact ⟨(hparts f hf).singular, (hparts f hf).plural⟩
  · intro text htext
    obtain ⟨word, hword, rfl⟩ := Option.map_eq_some_iff.mp htext
    exact hchosen word hword

/-- Over a worded grammar, whatever is built is described. -/
theorem described_of_build {g : Grammar} (hg : g.Worded) {s : Skeleton} :
    ∀ {f : Fragment}, build g s = .ok f → f.Described := by
  induction s using Skeleton.partsInduction with
  | step c i children choice ih =>
    intro f h
    obtain ⟨a, parts, chosen, hnamed, hslots, hbuilt, hchosen, rfl⟩ := exists_of_build_eq_ok h
    have hworded := hg c a (List.mem_of_getElem? hnamed)
    have hlength : parts.length = a.slots.length := by
      rw [← (forall₂_of_buildAll_eq_ok hbuilt).length_eq, ← hslots, List.length_map]
    have hparts : ∀ part ∈ parts, part.Described := by
      intro part hpart
      obtain ⟨child, hchild, hbuild⟩ := exists_mem_of_buildAll_eq_ok hbuilt part hpart
      exact ih child hchild hbuild
    obtain ⟨hsome, hmem⟩ := mem_of_chosenAttribute_eq_ok hchosen
    have hcomplete : ∀ text ∈ chosen, Text.Complete text.toList :=
      fun text htext => hworded.attributes text (hmem text htext)
    have hlt : parts.length < 10 := hlength ▸ hworded.slots_lt
    refine ⟨complete_describe ?_ hlt hparts hcomplete, complete_describe ?_ hlt hparts hcomplete⟩
    · rw [hlength, hsome]
      exact hworded.singular
    · rw [hlength, hsome]
      exact hworded.plural

end Fragment

end HiddenRule
