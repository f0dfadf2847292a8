import SourceMarkers.Proofs.FileReports

/-! # Sessions on several files

A session that is given files writes for each of them what a session on that
file alone writes, one after the other in the order of paths, with headers
between them where there is more than one. If a single pattern has no meaning or
a single file is not UTF-8, or if the system refuses to list one directory or to
read one file, it writes nothing.
-/

namespace SourceMarkers.Command

open Attempt Outcome Text

/-- The arguments that ask for the same about some files, which they name. -/
def Options.naming (o : Options) (ps : List Path) : List Text :=
  Options.arguments { o with inputs := ps.map Path.spelling }

/-- What a session on that file alone writes, below a line with its path if there are headers. -/
def block (s : Surroundings) (expand : Expansion) (o : Options) (headers : Bool) (p : Path) :
    Text :=
  (if headers then "==> ".toList ++ p.spelling ++ " <==\n".toList else []) ++
    (runWith s expand (o.naming [p])).output

inductive Hindered (s : Surroundings) (expand : Expansion) (o : Options) : Prop where
  | argument {a : Text} : a ∈ o.inputs → Unusable s.files expand a → Hindered s expand o
  | file {a : Text} {p : Path} : a ∈ o.inputs → Selects s.files expand o.gate a p →
      o.gate.passesPath p → Unreportable s.files p → Hindered s expand o

/-- The paths are the files to be reported on: the selected ones that pass the gate, one spelling
of each. -/
structure IsEligible (s : Surroundings) (expand : Expansion) (o : Options) (ps : List Path) :
    Prop where
  ascending : Path.Ascending ps
  selected : ∀ p ∈ ps, o.gate.passesPath p ∧ ∃ a ∈ o.inputs, Selects s.files expand o.gate a p
  complete : ∀ a ∈ o.inputs, ∀ p, Selects s.files expand o.gate a p → o.gate.passesPath p →
    ∃ q ∈ ps, Path.same p q

/-- The files that are reported on, unless some argument cannot be used. -/
def filesToReport (t : FileTree) (expand : Expansion) (gate : Gate) (arguments : List Text) :
    Except Failure (List Path) :=
  (inputFiles t expand gate arguments).result.map (List.filter gate.passesPath)

variable {s : Surroundings} {expand : Expansion} {o : Options} {format : Format} {headers : Bool}
  {p : Path} {ps : List Path} {arguments : List Text}

theorem IsSelection.eligible (h : IsSelection s.files expand o.gate o.inputs ps) :
    IsEligible s expand o (ps.filter o.gate.passesPath) where
  ascending := h.ascending.filter _
  selected p hp := by
    obtain ⟨hs, hg⟩ := List.mem_filter.mp hp
    exact ⟨hg, h.selected p hs⟩
  complete a ha p hp hg := by
    obtain ⟨q, hq, hs⟩ := h.complete a ha p hp
    exact ⟨q, List.mem_filter.mpr ⟨hq, (o.gate.passesPath_congr hs).symm.trans hg⟩, hs⟩

theorem IsEligible.isFile (h : IsEligible s expand o ps) (hp : p ∈ ps) : s.files.isFile p := by
  obtain ⟨-, a, -, ha⟩ := h.selected p hp
  exact ha.isFile

theorem IsEligible.exists_unreportable_iff (h : IsEligible s expand o ps)
    (hm : ¬ ∃ a ∈ o.inputs, Unusable s.files expand a) :
    (∃ p ∈ ps, Unreportable s.files p) ↔ Hindered s expand o := by
  constructor
  · rintro ⟨p, hp, hu⟩
    obtain ⟨hg, a, ha, hs⟩ := h.selected p hp
    exact .file ha hs hg hu
  · rintro (⟨ha, hn⟩ | ⟨ha, hs, hg, hu⟩)
    · exact absurd ⟨_, ha, hn⟩ hm
    · obtain ⟨q, hq, hpq⟩ := h.complete _ ha _ hs hg
      exact ⟨q, hq, (unreportable_congr hpq hs.isFile (h.isFile hq)).mp hu⟩

theorem IsEligible.not_unreportable (h : IsEligible s expand o ps) (hn : ¬ Hindered s expand o)
    (hp : p ∈ ps) : ¬ Unreportable s.files p := by
  intro hu
  obtain ⟨hg, a, ha, hs⟩ := h.selected p hp
  exact hn (.file ha hs hg hu)

theorem not_unusable_of_not_hindered (h : ¬ Hindered s expand o) :
    ¬ ∃ a ∈ o.inputs, Unusable s.files expand a := by
  rintro ⟨a, ha, hn⟩
  exact h (.argument ha hn)

theorem fails_reportFiles_iff : (reportFiles s expand o format).Fails ↔ Hindered s expand o := by
  rw [reportFiles_eq]
  by_cases hm : ∃ a ∈ o.inputs, Unusable s.files expand a
  · constructor
    · intro
      obtain ⟨a, ha, hn⟩ := hm
      exact .argument ha hn
    · intro
      exact fails_andThen_iff.mpr (.inl (fails_inputFiles_iff.mpr hm))
  · obtain ⟨ps, hps, hs⟩ := @exists_inputFiles_eq _ _ o.gate _ hm
    rw [hps, andThen_ok, ← hs.eligible.exists_unreportable_iff hm]
    apply fails_reportSelected_iff.trans
    constructor
    · rintro ⟨p, hp, hf⟩
      exact ⟨p, hp, (fails_reportFile_iff (hs.eligible.isFile hp)).mp hf⟩
    · rintro ⟨p, hp, hu⟩
      exact ⟨p, hp, (fails_reportFile_iff (hs.eligible.isFile hp)).mpr hu⟩

theorem Hindered.mono {o' : Options} (hi : o.inputs = o'.inputs)
    (hg : ∀ p, o.gate.passesPath p → o'.gate.passesPath p) (h : Hindered s expand o) :
    Hindered s expand o' := by
  rcases h with ⟨ha, hm⟩ | ⟨ha, hs, hp, hu⟩
  · exact .argument (hi ▸ ha) hm
  · exact .file (hi ▸ ha) (hs.mono hg) (hg _ hp) hu

theorem runWith_eq_ofAttempt (ho : Options.ofArguments arguments = .ok o) :
    runWith s expand arguments = ofAttempt (threshold s o) (perform s expand o) := by
  rw [runWith, ho]
  rfl

theorem perform_input (hf : Format.ofName? o.format = some format) (hi : o.inputs = []) :
    perform s expand o = reportInput s o format := by
  rw [perform, hf]
  dsimp only
  rw [hi, List.isEmpty_nil, if_pos rfl]

theorem perform_files (hf : Format.ofName? o.format = some format) (hi : o.inputs ≠ []) :
    perform s expand o = reportFiles s expand o format := by
  have he : o.inputs.isEmpty = false := by
    rwa [Bool.eq_false_iff, ne_eq, List.isEmpty_iff]
  rw [perform, hf]
  dsimp only
  rw [he, if_neg Bool.false_ne_true]

theorem runWith_files (ho : Options.ofArguments arguments = .ok o)
    (hf : Format.ofName? o.format = some format) (hi : o.inputs ≠ []) :
    runWith s expand arguments = ofAttempt (threshold s o) (reportFiles s expand o format) := by
  rw [runWith_eq_ofAttempt ho, perform_files hf hi]

theorem fails_reportInput_iff : (reportInput s o format).Fails ↔ decode? s.input = none := by
  unfold reportInput
  cases decode? s.input with
  | none => exact iff_of_true fails_error rfl
  | some text =>
    refine iff_of_false ?_ (Option.some_ne_none text)
    dsimp only
    split <;> exact not_fails_ok

/-- What fails behind a gate fails behind one that lets more files through. -/
theorem fails_perform_mono {o' : Options} (hf : o.format = o'.format) (hi : o.inputs = o'.inputs)
    (hg : ∀ p, o.gate.passesPath p → o'.gate.passesPath p) (h : (perform s expand o).Fails) :
    (perform s expand o').Fails := by
  cases hn : Format.ofName? o.format with
  | none =>
    rw [perform, ← hf, hn]
    exact fails_error
  | some format =>
    have hn' : Format.ofName? o'.format = some format := hf ▸ hn
    by_cases he : o.inputs = []
    · rw [perform_input hn he, fails_reportInput_iff] at h
      rwa [perform_input hn' (hi ▸ he), fails_reportInput_iff]
    · rw [perform_files hn he, fails_reportFiles_iff] at h
      rw [perform_files hn' (hi ▸ he), fails_reportFiles_iff]
      exact h.mono hi hg

theorem runWith_naming (hf : Format.ofName? o.format = some format) (ha : Path.Ascending ps)
    (hp : ∀ p ∈ ps, s.files.isFile p) (hg : ∀ p ∈ ps, o.gate.passesPath p) (hn : ps ≠ []) :
    runWith s expand (o.naming ps) = ofAttempt (threshold s o)
      (gather (reportFile s.files o format (headed format ps)) ps) := by
  have ho : Options.ofArguments (o.naming ps) = .ok { o with inputs := ps.map Path.spelling } :=
    Options.ofArguments_arguments _
  have hs : inputFiles s.files expand o.gate (ps.map Path.spelling) = ⟨[], .ok ps⟩ :=
    inputFiles_of_ascending ha hp
  have hr : reportSelected s.files { o with inputs := ps.map Path.spelling } format ps =
      gather (reportFile s.files o format (headed format ps)) ps := reportSelected_of_passes hg
  rw [runWith_files ho hf fun h => hn (List.map_eq_nil_iff.mp h), reportFiles_eq]
  dsimp only
  rw [hs, andThen_ok, hr]
  rfl

theorem runWith_naming_singleton (hf : Format.ofName? o.format = some format)
    (hp : s.files.isFile p) (hg : o.gate.passesPath p) :
    runWith s expand (o.naming [p]) =
      ofAttempt (threshold s o) (reportFile s.files o format false p) := by
  have hh : headed format [p] = false := Bool.and_false _
  rw [runWith_naming hf (List.pairwise_singleton _ p) (List.forall_mem_singleton.mpr hp)
    (List.forall_mem_singleton.mpr hg) (List.cons_ne_nil p []), hh, gather_singleton]

theorem block_eq (hf : Format.ofName? o.format = some format) (hp : s.files.isFile p)
    (hg : o.gate.passesPath p) (hu : ¬ Unreportable s.files p) :
    block s expand o headers p = (reportFile s.files o format headers p).value := by
  rw [block, runWith_naming_singleton hf hp hg, output_ofAttempt]
  exact (value_reportFile hp hu).symm

theorem IsEligible.block_eq_value (h : IsEligible s expand o ps)
    (hf : Format.ofName? o.format = some format) (hu : ∀ p ∈ ps, ¬ Unreportable s.files p)
    (hp : p ∈ ps) : block s expand o headers p = (reportFile s.files o format headers p).value :=
  block_eq hf (h.isFile hp) (h.selected p hp).1 (hu p hp)

/-- The selected files that pass the gate, each in the spelling that the arguments give first. -/
def eligible (s : Surroundings) (expand : Expansion) (o : Options) : List Path :=
  (Path.arrange (given s.files expand o.gate o.inputs)).filter o.gate.passesPath

theorem isEligible_eligible : IsEligible s expand o (eligible s expand o) :=
  isSelection_arrange.eligible

theorem filesToReport_of_gather {t : FileTree} {gate : Gate} {qs : List Path}
    (hg : (gather (argumentFiles t expand gate) arguments).result = .ok qs)
    (ha : Path.arrange qs = ps) :
    filesToReport t expand gate arguments = .ok (ps.filter gate.passesPath) := by
  rw [filesToReport, result_inputFiles hg, ha]
  rfl

theorem filesToReport_eq (hm : ¬ ∃ a ∈ o.inputs, Unusable s.files expand a) :
    filesToReport s.files expand o.gate o.inputs = .ok (eligible s expand o) := by
  rw [filesToReport, inputFiles_eq hm]
  rfl

/-- A session on files that nothing hinders writes the reports on them. -/
theorem value_reportFiles (h : ¬ Hindered s expand o) :
    (reportFiles s expand o format).value = (eligible s expand o).flatMap fun p =>
      (reportFile s.files o format (headed format (eligible s expand o)) p).value := by
  have he : IsEligible s expand o (eligible s expand o) := isEligible_eligible
  have hg : ∀ p ∈ eligible s expand o,
      ¬ (reportFile s.files o format (headed format (eligible s expand o)) p).Fails := fun p hp hr =>
    he.not_unreportable h hp ((fails_reportFile_iff (he.isFile hp)).mp hr)
  rw [reportFiles_eq, inputFiles_eq (not_unusable_of_not_hindered h)]
  exact congrArg value (gather_eq hg)

theorem value_reportFiles_eq_blocks (hf : Format.ofName? o.format = some format)
    (h : ¬ Hindered s expand o) :
    (reportFiles s expand o format).value =
      (eligible s expand o).flatMap (block s expand o (headed format (eligible s expand o))) := by
  have he : IsEligible s expand o (eligible s expand o) := isEligible_eligible
  rw [value_reportFiles h]
  refine List.flatMap_congr fun p hp => ?_
  exact (he.block_eq_value hf (fun p => he.not_unreportable h) hp).symm

end SourceMarkers.Command
