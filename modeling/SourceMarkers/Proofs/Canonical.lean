import Mathlib.Data.List.Forall2
import SourceMarkers.Proofs.Selection

/-! # Canonical selections

Which files are selected does not depend on the order in which they are found.
Neither the order of the arguments, nor repeated arguments, nor the order in which
a directory tells its names changes the paths that are arranged, up to their
spelling. Of the spellings of a path the one that is found first is kept.
-/

namespace SourceMarkers

namespace Path

variable {p q : Path} {ps qs : List Path}

/-- Paths that ascend are determined, up to their spelling, by which paths they are. -/
theorem forall₂_same_of_ascending (hp : Ascending ps) (hq : Ascending qs)
    (h : ∀ p ∈ ps, ∃ q ∈ qs, same p q) (h' : ∀ q ∈ qs, ∃ p ∈ ps, same q p) :
    List.Forall₂ (fun p q => same p q) ps qs := by
  have hc : ps.map components = qs.map components := by
    apply @eq_of_ascending _ (List.compareLex Component.order) _ _ _ (List.pairwise_map.mpr hp)
      (List.pairwise_map.mpr hq)
    intro cs
    simp only [List.mem_map]
    constructor
    · rintro ⟨p, hp, rfl⟩
      obtain ⟨q, hq, hs⟩ := h p hp
      exact ⟨q, hq, (same_iff.mp hs).symm⟩
    · rintro ⟨q, hq, rfl⟩
      obtain ⟨p, hp, hs⟩ := h' q hq
      exact ⟨p, hp, (same_iff.mp hs).symm⟩
  rw [← List.forall₂_eq_eq_eq, List.forall₂_map_left_iff, List.forall₂_map_right_iff] at hc
  exact hc.imp fun _ _ => same_iff.mpr

end Path

namespace FileTree

/-- The trees hold the same files and directories, but the names in a directory may be told in
another order. -/
structure Rearranged (t t' : FileTree) : Prop where
  workingDirectory_eq : t.workingDirectory = t'.workingDirectory
  node?_eq : t.node? = t'.node?
  perm_namesAt : ∀ route, (t.namesAt route).Perm (t'.namesAt route)

variable {t t' : FileTree} {p : Path} {route : Route}

theorem find?_entry_eq_some_iff {l : List (Route × Node)} (hn : (l.map Prod.fst).Nodup)
    {e : Route × Node} : l.find? (fun e => e.1 = route) = some e ↔ e ∈ l ∧ e.1 = route := by
  constructor
  · intro h
    exact ⟨List.mem_of_find?_eq_some h, by simpa using List.find?_some h⟩
  · rintro ⟨he, rfl⟩
    obtain ⟨e', he'⟩ : ∃ e', l.find? (fun x => x.1 = e.1) = some e' := by
      rw [← Option.isSome_iff_exists, List.find?_isSome]
      exact ⟨e, he, decide_eq_true rfl⟩
    have hk : e'.1 = e.1 := by simpa using List.find?_some he'
    rw [he', List.inj_on_of_nodup_map hn (List.mem_of_find?_eq_some he') he hk]

theorem rearranged_of_perm (hw : t.workingDirectory = t'.workingDirectory)
    (hp : t.entries.Perm t'.entries) (hn : (t.entries.map Prod.fst).Nodup) : Rearranged t t' where
  workingDirectory_eq := hw
  node?_eq := by
    have hn' : (t'.entries.map Prod.fst).Nodup := (hp.map Prod.fst).nodup_iff.mp hn
    funext route
    have hf : (t.entries.find? fun e => e.1 = route) = t'.entries.find? fun e => e.1 = route := by
      ext e
      rw [find?_entry_eq_some_iff hn, find?_entry_eq_some_iff hn', hp.mem_iff]
    rw [node?, node?, hf]
  perm_namesAt _ := hp.filterMap _

theorem Rearranged.symm (h : Rearranged t t') : Rearranged t' t where
  workingDirectory_eq := h.workingDirectory_eq.symm
  node?_eq := h.node?_eq.symm
  perm_namesAt route := (h.perm_namesAt route).symm

theorem Rearranged.follow?_eq (h : Rearranged t t') (parts : List Text) :
    t.follow? route parts = t'.follow? route parts := by
  induction parts generalizing route with
  | nil => rfl
  | cons part parts ih =>
    rw [follow?, follow?, isDirectoryAt, isDirectoryAt, h.node?_eq, ih, ih, ih]

theorem Rearranged.route?_eq (h : Rearranged t t') (p : Path) : t.route? p = t'.route? p := by
  rw [route?, route?, h.follow?_eq, h.workingDirectory_eq]

theorem Rearranged.find?_eq (h : Rearranged t t') (p : Path) : t.find? p = t'.find? p := by
  rw [find?, find?, h.route?_eq, h.node?_eq]

theorem Rearranged.isFile_eq (h : Rearranged t t') (p : Path) : t.isFile p = t'.isFile p := by
  rw [isFile, isFile, h.find?_eq]

theorem Rearranged.isDirectory_eq (h : Rearranged t t') (p : Path) :
    t.isDirectory p = t'.isDirectory p := by
  rw [isDirectory, isDirectory, h.find?_eq]

theorem Rearranged.refusal?_eq (h : Rearranged t t') (p : Path) :
    t.refusal? p = t'.refusal? p := by
  rw [refusal?, refusal?, h.find?_eq]

theorem Rearranged.isListable_eq (h : Rearranged t t') (p : Path) :
    t.isListable p = t'.isListable p := by
  rw [isListable, isListable, h.isDirectory_eq, h.refusal?_eq]

theorem Rearranged.perm_names (h : Rearranged t t') (p : Path) : (t.names p).Perm (t'.names p) := by
  rw [names, names, h.route?_eq]
  cases t'.route? p with
  | none => exact List.Perm.nil
  | some route => exact h.perm_namesAt route

end FileTree

namespace Command

open FileTree

variable {t t' : FileTree} {expand : Expansion} {gate : Gate} {a : Text}
  {arguments arguments' : List Text} {p : Path} {ps qs : List Path}

theorem Selects.rearranged (h : Rearranged t t') (hs : Selects t expand gate a p) :
    Selects t' expand gate a p := by
  cases hs with
  | named hf => exact .named (h.isFile_eq _ ▸ hf)
  | listed hd hn hf hg =>
    exact .listed (h.isListable_eq _ ▸ hd) ((h.perm_names _).mem_iff.mp hn) (h.isFile_eq _ ▸ hf) hg
  | found hf hd he hp hi =>
    exact .found (h.isFile_eq _ ▸ hf) (h.isDirectory_eq _ ▸ hd) he hp (h.isFile_eq _ ▸ hi)

theorem unusable_iff_of_rearranged (h : Rearranged t t') :
    Unusable t expand a ↔ Unusable t' expand a := by
  rw [Unusable, Unusable, Meaningless, Meaningless, Unlistable, Unlistable, h.isFile_eq,
    h.isDirectory_eq, h.refusal?_eq]

theorem IsSelection.forall₂_same (h : Rearranged t t') (ha : ∀ a, a ∈ arguments ↔ a ∈ arguments')
    (hp : IsSelection t expand gate arguments ps) (hq : IsSelection t' expand gate arguments' qs) :
    List.Forall₂ (fun p q => Path.same p q) ps qs := by
  apply Path.forall₂_same_of_ascending hp.ascending hq.ascending
  · intro p hp'
    obtain ⟨a, haa, hs⟩ := hp.selected p hp'
    exact hq.complete a ((ha a).mp haa) p (hs.rearranged h)
  · intro q hq'
    obtain ⟨a, haa, hs⟩ := hq.selected q hq'
    exact hp.complete a ((ha a).mpr haa) q (hs.rearranged h.symm)

/-- Arguments select files in strictly ascending order, each in the spelling that they give first,
unless one of them has no meaning or is a directory that the system refuses to list. Arguments in
another order, repeated ones and names told in another order select the same files. -/
theorem inputs_canonical (h : Rearranged t t') (ha : ∀ a, a ∈ arguments ↔ a ∈ arguments') :
    ((inputFiles t expand gate arguments).Fails ↔
        ∃ a ∈ arguments, Meaningless t expand a ∨ Unlistable t a) ∧
      ((inputFiles t' expand gate arguments').Fails ↔
        (inputFiles t expand gate arguments).Fails) ∧
      ∀ ps, (inputFiles t expand gate arguments).result = .ok ps →
        IsSelection t expand gate arguments ps ∧
          (∀ p ∈ ps, (given t expand gate arguments).find? (Path.same p) = some p) ∧
          ∃ qs, (inputFiles t' expand gate arguments').result = .ok qs ∧
            List.Forall₂ (fun p q => Path.same p q) ps qs := by
  have hm : (∃ a ∈ arguments', Unusable t' expand a) ↔ ∃ a ∈ arguments, Unusable t expand a := by
    simp only [unusable_iff_of_rearranged h, ha]
  refine ⟨fails_inputFiles_iff, ?_, ?_⟩
  · rw [fails_inputFiles_iff, fails_inputFiles_iff, hm]
  · intro ps hps
    have hn : ¬ ∃ a ∈ arguments, Unusable t expand a := by
      rw [← @fails_inputFiles_iff _ _ gate]
      rintro ⟨e, he⟩
      rw [hps] at he
      cases he
    rw [inputFiles_eq hn] at hps
    obtain rfl := Except.ok.inj hps
    refine ⟨isSelection_arrange, fun p hp => Path.find?_same_of_mem_arrange hp, ?_⟩
    obtain ⟨qs, hqs, hs⟩ := @exists_inputFiles_eq t' expand gate _ fun he => hn (hm.mp he)
    exact ⟨qs, congrArg Attempt.result hqs, isSelection_arrange.forall₂_same h ha hs⟩

/-- The spelling of a file that is named and stands in a directory that is named depends on which
comes first, and nothing else does. -/
theorem inputs_canonical_repeated :
    let s : Route × Node := (["s".toList], .directory)
    let a : Route × Node := (["s".toList, "a.c".toList], .file .empty)
    let b : Route × Node := (["s".toList, "b.c".toList], .file .empty)
    let t : FileTree := { entries := [s, b, a] }
    let t' : FileTree := { entries := [s, a, b] }
    let arguments := ["s", "s//a.c"].map String.toList
    let arguments' := ["s//a.c", "s", "s//a.c"].map String.toList
    let ps : List Path := [⟨"s/a.c".toList⟩, ⟨"s/b.c".toList⟩]
    let qs : List Path := [⟨"s//a.c".toList⟩, ⟨"s/b.c".toList⟩]
    (inputFiles t (Glob.expand t) .strict arguments).result = .ok ps ∧
      (inputFiles t' (Glob.expand t) .strict arguments').result = .ok qs ∧
      List.Forall₂ (fun p q => Path.same p q) ps qs := by
  intro s a b t t' arguments arguments' ps qs
  have h : Rearranged t t' :=
    rearranged_of_perm rfl ((List.Perm.swap a b []).cons s) (by decide +kernel)
  have ha : ∀ a, a ∈ arguments ↔ a ∈ arguments' := by
    intro a
    simp only [arguments, arguments', List.map_cons, List.map_nil, List.mem_cons,
      List.not_mem_nil, or_false]
    tauto
  have hps : (inputFiles t (Glob.expand t) .strict arguments).result = .ok ps := by
    have hg : (Attempt.gather (argumentFiles t (Glob.expand t) .strict) arguments).result =
        .ok [⟨"s/b.c".toList⟩, ⟨"s/a.c".toList⟩, ⟨"s//a.c".toList⟩] := by decide +kernel
    exact (result_inputFiles hg).trans
      (congrArg Except.ok (Path.arrange_eq_iff.mpr (by decide +kernel)))
  have hqs : (inputFiles t' (Glob.expand t) .strict arguments').result = .ok qs := by
    have hg : (Attempt.gather (argumentFiles t' (Glob.expand t) .strict) arguments').result =
        .ok [⟨"s//a.c".toList⟩, ⟨"s/a.c".toList⟩, ⟨"s/b.c".toList⟩, ⟨"s//a.c".toList⟩] := by
      decide +kernel
    exact (result_inputFiles hg).trans
      (congrArg Except.ok (Path.arrange_eq_iff.mpr (by decide +kernel)))
  obtain ⟨-, -, qs', hqs', hs⟩ := (inputs_canonical h ha).2.2 ps hps
  obtain rfl : qs' = qs := Except.ok.inj (hqs'.symm.trans hqs)
  exact ⟨hps, hqs, hs⟩

end Command

end SourceMarkers
