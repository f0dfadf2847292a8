import SourceMarkers.Fields
import SourceMarkers.Proofs.Balance

/-! # Where fields end

A field ends at the first comma that stands at rest, and the last one at the
first slash. Each cut is described by what stands on its two sides, and all
fields are parts of the body.
-/

namespace SourceMarkers.Fields

open Nesting

variable {f : Fields} {k : Kind} {body owner t u v : Text} {receiver : Option Text}

theorem cutComma?_eq_some_iff :
    cutComma? t = some (u, v) ↔ t = u ++ ',' :: v ∧ u.FreeOf .comma := by
  rw [cutComma?, comma?_eq]
  exact Text.map_walk?_meets_eq_some_iff fun _ => Glyph.ofChar_eq_comma_iff

theorem cutSlash?_eq_some_iff : cutSlash? t = some (u, v) ↔ t = u ++ '/' :: v ∧ '/' ∉ u := by
  constructor
  · exact eq_of_cutSlash?
  · rintro ⟨rfl, hu⟩
    induction u with
    | nil => rfl
    | cons c u ih =>
      have hc : c ≠ '/' := fun h => hu (h ▸ List.mem_cons_self)
      rw [List.cons_append, cutSlash?, if_neg hc, ih fun hm => hu (List.mem_cons_of_mem _ hm)]
      rfl

structure PartOf (k : Kind) (body : Text) (f : Fields) : Prop where
  owner_subset : f.owner ⊆ body
  receiver_subset : ∀ r ∈ f.receiver, r ⊆ body
  receiver_isSome : f.receiver.isSome = k.hasReceiver
  name_subset : f.name ⊆ body
  slash_not_mem_name : '/' ∉ f.name
  params_subset : f.params ⊆ body

theorem subset_of_cutComma? (h : cutComma? t = some (u, v)) : u ⊆ t ∧ v ⊆ t := by
  rw [eq_of_cutComma? h]
  exact ⟨List.subset_append_left _ _, fun c hc => by simp [hc]⟩

theorem of_finish? (h : finish? owner receiver t = some f) :
    f.owner = owner ∧ f.receiver = receiver ∧ f.name ⊆ t ∧ '/' ∉ f.name ∧ f.params ⊆ t := by
  unfold finish? at h
  obtain ⟨⟨name, params⟩, hc, rfl⟩ := Option.map_eq_some_iff.mp h
  obtain ⟨rfl, hs⟩ := eq_of_cutSlash? hc
  refine ⟨rfl, rfl, List.subset_append_left _ _, hs, fun c hm => ?_⟩
  simp [List.dropLast_subset params hm]

theorem partOf_of_ofBody? (h : ofBody? k body = some f) : PartOf k body f := by
  unfold ofBody? at h
  obtain ⟨⟨owner, rest⟩, hc, h⟩ := Option.bind_eq_some_iff.mp h
  obtain ⟨ho, hr⟩ := subset_of_cutComma? hc
  dsimp only at h
  split at h
  · next hk =>
    obtain ⟨⟨receiver, rest'⟩, hc, h⟩ := Option.bind_eq_some_iff.mp h
    obtain ⟨hv, hr'⟩ := subset_of_cutComma? hc
    have hv := List.Subset.trans hv hr
    obtain ⟨rfl, hv', hn, hs, hp⟩ := of_finish? h
    have hr := List.Subset.trans hr' hr
    refine ⟨ho, ?_, by rw [hv', hk]; rfl, List.Subset.trans hn hr, hs, List.Subset.trans hp hr⟩
    rw [hv']
    rintro r ⟨⟩
    exact hv
  · next hk =>
    obtain ⟨rfl, hv', hn, hs, hp⟩ := of_finish? h
    refine ⟨ho, ?_, by rw [hv', Bool.eq_false_iff.mpr hk]; rfl, List.Subset.trans hn hr, hs,
      List.Subset.trans hp hr⟩
    rw [hv']
    rintro r ⟨⟩

end SourceMarkers.Fields
