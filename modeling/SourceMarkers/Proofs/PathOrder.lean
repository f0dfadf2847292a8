import Mathlib.Data.List.Sort
import SourceMarkers.Path

/-! # The order of paths

Paths are compared by their components, and two paths are equal in this order
just if their components are the same. Arranged paths ascend strictly: of the
paths with the same components the first one given is left, and none is lost
otherwise.
-/

namespace SourceMarkers.Path

open Std

theorem transCmp_comap {α β : Type} (cmp : β → β → Ordering) [TransCmp cmp] (f : α → β) :
    TransCmp fun a b => cmp (f a) (f b) where
  eq_swap := OrientedCmp.eq_swap
  isLE_trans := TransCmp.isLE_trans

namespace Component

def charOrder (c d : Char) : Ordering := compare c.toNat d.toNat

instance : TransCmp charOrder := transCmp_comap compare Char.toNat

instance : LawfulEqCmp charOrder where
  eq_of_compare h := Char.toNat_inj.mp (LawfulEqCmp.eq_of_compare h)

instance : TransCmp order :=
  have := transCmp_comap compare rank
  have := transCmp_comap (List.compareLex charOrder) fun c : Component => c.name?.getD []
  inferInstanceAs (TransCmp (compareLex (fun a b : Component => compare a.rank b.rank)
    fun a b => List.compareLex charOrder (a.name?.getD []) (b.name?.getD [])))

instance : LawfulEqCmp order where
  eq_of_compare {a b} h := by
    obtain ⟨hr, hn⟩ := Ordering.then_eq_eq.mp h
    have hr : a.rank = b.rank := LawfulEqCmp.eq_of_compare hr
    have hc : List.compareLex charOrder (a.name?.getD []) (b.name?.getD []) = .eq := hn
    have hn : a.name?.getD [] = b.name?.getD [] := LawfulEqCmp.eq_of_compare hc
    cases a <;> cases b <;> simp_all [rank, name?]

end Component

instance : TransCmp order := transCmp_comap (List.compareLex Component.order) components

variable {p q r : Path} {ps qs : List Path}

theorem same_iff : same p q ↔ p.components = q.components := decide_eq_true_iff

theorem order_eq_iff : order p q = .eq ↔ same p q := by
  rw [same_iff, order]
  exact LawfulEqCmp.compare_eq_iff_eq

theorem same_refl (p : Path) : same p p := same_iff.mpr rfl

theorem same_symm (h : same p q) : same q p := same_iff.mpr (same_iff.mp h).symm

theorem le_trans (h : le p q) (h' : le q r) : le p r := TransCmp.isLE_trans h h'

theorem le_total (p q : Path) : le p q || le q p := by
  have hs : order q p = (order p q).swap := OrientedCmp.eq_swap
  rw [le, le, hs]
  cases order p q <;> rfl

/-- The list ascends: each path comes before those that follow it. -/
def Ascending (ps : List Path) : Prop := ps.Pairwise fun p q => order p q = .lt

instance : Decidable (Ascending ps) :=
  inferInstanceAs (Decidable (ps.Pairwise fun p q => order p q = .lt))

theorem dropRepeatsAfter_subset : dropRepeatsAfter p ps ⊆ ps := by
  induction ps generalizing p with
  | nil => exact List.Subset.refl _
  | cons q ps ih =>
    rw [dropRepeatsAfter]
    split
    · exact List.subset_cons_of_subset q ih
    · exact List.cons_subset_cons q ih

/-- A path is dropped only for one with the same components. -/
theorem exists_same_dropRepeatsAfter (h : q ∈ ps) : ∃ r ∈ p :: dropRepeatsAfter p ps, same q r := by
  induction ps generalizing p with
  | nil => exact absurd h List.not_mem_nil
  | cons r ps ih =>
    rw [dropRepeatsAfter]
    split
    · next hs =>
      rcases List.mem_cons.mp h with rfl | h
      · exact ⟨p, List.mem_cons_self, same_symm hs⟩
      · exact ih h
    · rcases List.mem_cons.mp h with rfl | h
      · exact ⟨q, List.mem_cons_of_mem p List.mem_cons_self, same_refl q⟩
      · obtain ⟨x, hx, hq⟩ := @ih r h
        exact ⟨x, List.mem_cons_of_mem p hx, hq⟩

/-- Paths with the same components stand together in a sorted list, so that no two are left. -/
theorem ascending_dropRepeatsAfter (h : (p :: ps).Pairwise fun p q => le p q) :
    Ascending (p :: dropRepeatsAfter p ps) := by
  induction ps generalizing p with
  | nil => exact List.pairwise_singleton _ _
  | cons q ps ih =>
    obtain ⟨hp, hq⟩ := List.pairwise_cons.mp h
    rw [dropRepeatsAfter]
    split
    · next hs =>
      apply ih
      exact List.pairwise_cons.mpr ⟨fun r hr => hp r (List.mem_cons_of_mem q hr), hq.of_cons⟩
    · next hs =>
      have hi := ih hq
      have hlt : order p q = .lt := by
        have hle : (order p q).isLE := hp q List.mem_cons_self
        have hne : order p q ≠ .eq := fun he => hs (order_eq_iff.mp he)
        cases ho : order p q <;> simp_all
      refine List.pairwise_cons.mpr ⟨fun r hr => ?_, hi⟩
      rcases List.mem_cons.mp hr with rfl | hr
      · exact hlt
      · exact TransCmp.lt_trans hlt ((List.pairwise_cons.mp hi).1 r hr)

theorem pairwise_mergeSort_le (ps : List Path) :
    (ps.mergeSort le).Pairwise fun p q => le p q :=
  @List.pairwise_mergeSort _ le (fun _ _ _ => le_trans) le_total ps

theorem ascending_arrange (ps : List Path) : Ascending (arrange ps) := by
  have hs := pairwise_mergeSort_le ps
  unfold arrange
  cases hm : ps.mergeSort le with
  | nil => exact List.Pairwise.nil
  | cons p qs =>
    rw [hm] at hs
    exact ascending_dropRepeatsAfter hs

theorem mem_of_mem_arrange (h : p ∈ arrange ps) : p ∈ ps := by
  rw [← @List.mem_mergeSort _ le]
  unfold arrange at h
  cases hm : ps.mergeSort le with
  | nil =>
    rw [hm] at h
    exact absurd h List.not_mem_nil
  | cons q qs =>
    rw [hm] at h
    exact List.cons_subset_cons q dropRepeatsAfter_subset h

theorem exists_same_arrange (h : p ∈ ps) : ∃ q ∈ arrange ps, same p q := by
  rw [← @List.mem_mergeSort _ le] at h
  unfold arrange
  cases hm : ps.mergeSort le with
  | nil =>
    rw [hm] at h
    exact absurd h List.not_mem_nil
  | cons q qs =>
    rw [hm] at h
    rcases List.mem_cons.mp h with rfl | h
    · exact ⟨p, List.mem_cons_self, same_refl p⟩
    · exact exists_same_dropRepeatsAfter h

theorem dropRepeatsAfter_of_ascending (h : Ascending (p :: ps)) : dropRepeatsAfter p ps = ps := by
  induction ps generalizing p with
  | nil => rfl
  | cons q ps ih =>
    obtain ⟨hp, hq⟩ := List.pairwise_cons.mp h
    have hs : ¬ same p q := fun hs => by
      have hlt := hp q List.mem_cons_self
      rw [order_eq_iff.mpr hs] at hlt
      cases hlt
    rw [dropRepeatsAfter, if_neg hs, ih hq]

theorem arrange_of_ascending (h : Ascending ps) : arrange ps = ps := by
  have hs : ps.mergeSort le = ps := by
    apply List.mergeSort_of_pairwise
    exact h.imp fun hlt => congrArg Ordering.isLE hlt
  rw [arrange, hs]
  cases ps with
  | nil => rfl
  | cons p ps => rw [dropRepeats, dropRepeatsAfter_of_ascending h]

theorem same_trans {r : Path} (h : same p q) (h' : same q r) : same p r :=
  same_iff.mpr ((same_iff.mp h).trans (same_iff.mp h'))

theorem le_of_same (h : same p q) : le p q := by
  rw [le, order_eq_iff.mpr h]
  rfl

/-- Sorting leaves paths with the same components in their order. -/
theorem filter_same_mergeSort (p : Path) (ps : List Path) :
    (ps.mergeSort le).filter (same p) = ps.filter (same p) := by
  have hle : (ps.filter (same p)).Pairwise fun q r => le q r := by
    apply List.pairwise_of_forall_mem_list
    intro q hq r hr
    exact le_of_same (same_trans (same_symm (List.of_mem_filter hq)) (List.of_mem_filter hr))
  have hs : (ps.filter (same p)).Sublist (ps.mergeSort le) :=
    @List.sublist_mergeSort _ le ps (fun _ _ _ => le_trans) le_total _ hle List.filter_sublist
  have hf := hs.filter (same p)
  rw [List.filter_filter] at hf
  simp only [Bool.and_self] at hf
  have hl : (ps.filter (same p)).length = ((ps.mergeSort le).filter (same p)).length :=
    ((List.mergeSort_perm ps le).filter (same p)).length_eq.symm
  exact (hf.eq_of_length hl).symm

theorem find?_same_mergeSort (p : Path) (ps : List Path) :
    (ps.mergeSort le).find? (same p) = ps.find? (same p) := by
  rw [← List.head?_filter, ← List.head?_filter, filter_same_mergeSort]

theorem find?_same_of_mem_dropRepeatsAfter (h : (p :: ps).Pairwise fun p q => le p q)
    (hq : q ∈ p :: dropRepeatsAfter p ps) : (p :: ps).find? (same q) = some q := by
  induction ps generalizing p with
  | nil =>
    rw [List.mem_singleton.mp hq, List.find?_cons_of_pos (same_refl p)]
  | cons r ps ih =>
    obtain ⟨hp, hr⟩ := List.pairwise_cons.mp h
    have hlt := (List.pairwise_cons.mp (ascending_dropRepeatsAfter h)).1 q
    rcases List.mem_cons.mp hq with rfl | hq'
    · exact List.find?_cons_of_pos (same_refl q)
    have hn : ¬ same q p := fun hs => by
      have hl := hlt hq'
      rw [order_eq_iff.mpr (same_symm hs)] at hl
      cases hl
    rw [List.find?_cons_of_neg hn]
    rw [dropRepeatsAfter] at hq'
    split at hq'
    · next hs =>
      -- The path that is dropped has the components of the one before it.
      have hi := ih (List.pairwise_cons.mpr ⟨fun x hx => hp x (List.mem_cons_of_mem r hx),
        hr.of_cons⟩) (List.mem_cons_of_mem p hq')
      rw [List.find?_cons_of_neg hn] at hi
      rwa [List.find?_cons_of_neg fun hqr => hn (same_trans hqr (same_symm hs))]
    · exact ih hr hq'

theorem find?_same_of_mem_arrange (h : p ∈ arrange ps) : ps.find? (same p) = some p := by
  have hs := pairwise_mergeSort_le ps
  rw [← find?_same_mergeSort]
  unfold arrange at h
  cases hm : ps.mergeSort le with
  | nil =>
    rw [hm] at h
    exact absurd h List.not_mem_nil
  | cons q qs =>
    rw [hm] at h hs
    exact find?_same_of_mem_dropRepeatsAfter hs h

theorem eq_of_ascending {α : Type} {cmp : α → α → Ordering} [Std.OrientedCmp cmp] {l l' : List α}
    (hl : l.Pairwise fun a b => cmp a b = .lt) (hl' : l'.Pairwise fun a b => cmp a b = .lt)
    (h : ∀ a, a ∈ l ↔ a ∈ l') : l = l' := by
  have : Std.Antisymm fun a b => cmp a b = .lt :=
    ⟨fun _ _ hab hba => absurd hba (Std.OrientedCmp.not_lt_of_lt hab)⟩
  have : Std.Irrefl fun a b => cmp a b = .lt :=
    ⟨fun _ haa => Std.OrientedCmp.not_lt_of_lt haa haa⟩
  exact hl.eq_of_mem_iff hl' h

theorem same_eq_of_same (h : same p q) : same p = same q := by
  funext r
  rw [Bool.eq_iff_iff, same_iff, same_iff, same_iff.mp h]

theorem mem_arrange_iff : p ∈ arrange ps ↔ ps.find? (same p) = some p := by
  constructor
  · exact find?_same_of_mem_arrange
  · intro h
    obtain ⟨q, hq, hs⟩ := exists_same_arrange (List.mem_of_find?_eq_some h)
    have hf := find?_same_of_mem_arrange hq
    rw [← same_eq_of_same hs, h] at hf
    rwa [Option.some.inj hf]

/-- What is arranged is the list that ascends, holds first spellings and leaves no path out. -/
theorem arrange_eq_iff : arrange ps = qs ↔ Ascending qs ∧
    (∀ q ∈ qs, ps.find? (same q) = some q) ∧ ∀ p ∈ ps, ∃ q ∈ qs, same p q := by
  constructor
  · rintro rfl
    exact ⟨ascending_arrange ps, fun q => find?_same_of_mem_arrange, fun p => exists_same_arrange⟩
  · rintro ⟨ha, hf, hc⟩
    refine @eq_of_ascending _ order _ _ _ (ascending_arrange ps) ha fun q => ?_
    rw [mem_arrange_iff]
    constructor
    · intro hq
      obtain ⟨r, hr, hs⟩ := hc q (List.mem_of_find?_eq_some hq)
      have hfr := hf r hr
      rw [← same_eq_of_same hs, hq] at hfr
      rwa [Option.some.inj hfr]
    · exact hf q

end SourceMarkers.Path
