import SourceMarkers.Proofs.Canonical
import SourceMarkers.Proofs.FileSessions

/-! # What a wider gate adds

A gate decides which files of a directory are selected, and once more which of
the selected files are reported on. A gate that lets more files through adds
files to those that are reported on, and changes neither the order nor the
spelling of the others. It can only make a session fail that would not fail.
-/

namespace SourceMarkers

namespace Path

variable {p q : Path} {ps : List Path} {f : Path → Bool}

/-- Paths can be left out before they are arranged, if it does not depend on their spelling which
ones are left out. -/
theorem filter_arrange (hf : ∀ p q, same p q → f p = f q) (ps : List Path) :
    (arrange ps).filter f = arrange (ps.filter f) := by
  refine @eq_of_ascending _ order _ _ _ ((ascending_arrange ps).filter f) (ascending_arrange _) ?_
  intro p
  rw [List.mem_filter, mem_arrange_iff, mem_arrange_iff, List.find?_filter]
  by_cases hp : f p
  · -- The first spelling is not left out, so that it is still the first one afterwards.
    have he : (fun q => decide (f q ∧ same p q)) = same p := by
      funext q
      by_cases hs : same p q
      · rw [hs, decide_eq_true_iff]
        exact ⟨hf p q hs ▸ hp, rfl⟩
      · rw [Bool.eq_false_iff.mpr hs, decide_eq_false_iff_not]
        exact fun h => Bool.false_ne_true h.2
    rw [he]
    exact and_iff_left hp
  · refine iff_of_false (fun h => hp h.2) fun h => ?_
    have hs := List.find?_some h
    exact hp (of_decide_eq_true hs).1

end Path

theorem Gate.passesPath_of_strict (gate : Gate) {p : Path} (h : strict.passesPath p) :
    gate.passesPath p := by
  unfold passesPath passes at h ⊢
  cases hd : Dialect.ofPath? p with
  | none =>
    rw [hd] at h
    cases h
  | some d =>
    rw [hd] at h
    cases d with
    | c | header => cases gate <;> rfl
    | cpp => cases h

namespace Command

namespace Attempt

variable {α β : Type} {f f' : α → Attempt (List β)} {a : α} {as : List α} {keep : β → Bool}

theorem map_filter_result_gather_cons :
    (gather f (a :: as)).result.map (List.filter keep) =
      ((f a).result.map (List.filter keep)).bind fun b =>
        ((gather f as).result.map (List.filter keep)).map (b ++ ·) := by
  rw [gather]
  generalize f a = x
  generalize gather f as = y
  obtain ⟨log, e | b⟩ := x
  · rfl
  · obtain ⟨log', e | bs⟩ := y
    · rfl
    · exact congrArg Except.ok (List.filter_append b bs)

/-- It makes no difference to what is kept if the work on each element differs only in what is not
kept. -/
theorem map_filter_result_gather
    (h : ∀ a ∈ as, (f a).result.map (List.filter keep) = (f' a).result.map (List.filter keep)) :
    (gather f as).result.map (List.filter keep) = (gather f' as).result.map (List.filter keep) := by
  induction as with
  | nil => rfl
  | cons a as ih =>
    have ha := h a List.mem_cons_self
    have hr := ih fun b hb => h b (List.mem_cons_of_mem a hb)
    rw [map_filter_result_gather_cons, map_filter_result_gather_cons, ha, hr]

end Attempt

open Attempt Outcome

variable {t : FileTree} {expand : Expansion} {gate gate' : Gate} {a : Text} {arguments : List Text}

theorem map_filter_inputFiles :
    (inputFiles t expand gate' arguments).result.map (List.filter gate.passesPath) =
      ((gather (argumentFiles t expand gate') arguments).result.map
        (List.filter gate.passesPath)).map Path.arrange := by
  rw [inputFiles, result_andThen_done]
  cases (gather (argumentFiles t expand gate') arguments).result with
  | error e => rfl
  | ok ps => exact congrArg Except.ok (Path.filter_arrange (fun p q => gate.passesPath_congr) ps)

section Narrower

variable (hg : ∀ p, gate.passesPath p → gate'.passesPath p)
include hg

theorem filter_passesPath_filter (ps : List Path) :
    (ps.filter gate'.passesPath).filter gate.passesPath = ps.filter gate.passesPath := by
  rw [List.filter_filter]
  refine List.filter_congr fun p _ => ?_
  cases hp : gate.passesPath p with
  | false => exact Bool.false_and _
  | true => rw [hg p hp, Bool.and_self]

theorem filter_passing (d : Path) :
    (passing t gate' d).filter gate.passesPath = (passing t gate d).filter gate.passesPath := by
  rw [passing, passing, List.filter_filter, List.filter_filter]
  refine List.filter_congr fun p _ => ?_
  cases hp : gate.passesPath p with
  | false => rfl
  | true => rw [hg p hp]

theorem map_filter_directoryFiles (d : Path) :
    (directoryFiles t gate d).result.map (List.filter gate.passesPath) =
      (directoryFiles t gate' d).result.map (List.filter gate.passesPath) := by
  unfold directoryFiles
  split
  · rfl
  · exact congrArg Except.ok (filter_passing hg d).symm

theorem map_filter_argumentFiles (a : Text) :
    (argumentFiles t expand gate a).result.map (List.filter gate.passesPath) =
      (argumentFiles t expand gate' a).result.map (List.filter gate.passesPath) := by
  unfold argumentFiles
  split
  · rfl
  · split
    · exact map_filter_directoryFiles hg _
    · rfl

/-- A narrower gate leaves, of the files that are reported on, those that it lets through. -/
theorem filesToReport_narrower (arguments : List Text) :
    filesToReport t expand gate arguments =
      (filesToReport t expand gate' arguments).map (List.filter gate.passesPath) := by
  have hf : ∀ r : Except Failure (List Path),
      (r.map (List.filter gate'.passesPath)).map (List.filter gate.passesPath) =
        r.map (List.filter gate.passesPath) := by
    rintro (e | ps)
    · rfl
    · exact congrArg Except.ok (filter_passesPath_filter hg ps)
  rw [filesToReport, filesToReport, hf, map_filter_inputFiles, map_filter_inputFiles,
    map_filter_result_gather fun a _ => map_filter_argumentFiles hg a]

end Narrower

variable {s : Surroundings} {o o' : Options} {format : Format} {headers : Bool} {p : Path}
  {arguments' : List Text}

theorem reportFile_congr (h : o.only = o'.only) :
    reportFile t o format headers p = reportFile t o' format headers p := by
  unfold reportFile
  rw [h]

theorem exists_format_of_not_fails (h : ¬ (perform s expand o).Fails) :
    ∃ format, Format.ofName? o.format = some format := by
  refine Option.ne_none_iff_exists'.mp fun hn => h ?_
  rw [perform, hn]
  exact fails_error

theorem value_perform_of_not_annotated (hf : Format.ofName? o.format = some format)
    (hn : format ≠ .annotated) (hi : o.inputs ≠ []) (h : ¬ Hindered s expand o) :
    (perform s expand o).value = (eligible s expand o).flatMap (block s expand o false) := by
  have hh : headed format (eligible s expand o) = false := by
    rw [headed, decide_eq_false hn, Bool.false_and]
  rw [perform_files hf hi, value_reportFiles_eq_blocks hf h, hh]

theorem block_congr (hf : Format.ofName? o.format = some format) (he : o.format = o'.format)
    (hk : o.only = o'.only) (hp : s.files.isFile p) (hg : o.gate.passesPath p)
    (hg' : o'.gate.passesPath p) (hu : ¬ Unreportable s.files p) :
    block s expand o headers p = block s expand o' headers p := by
  rw [block_eq hf hp hg hu, block_eq (he ▸ hf) hp hg' hu, reportFile_congr hk]

theorem eligible_narrower (hi : o.inputs = o'.inputs)
    (hg : ∀ p, o.gate.passesPath p → o'.gate.passesPath p) (h : ¬ Hindered s expand o') :
    eligible s expand o = (eligible s expand o').filter o.gate.passesPath := by
  have hm := not_unusable_of_not_hindered h
  have hn := @filesToReport_narrower s.files expand _ _ hg o'.inputs
  rw [filesToReport_eq hm, ← hi, filesToReport_eq (hi ▸ hm)] at hn
  exact Except.ok.inj hn

/-- Behind a narrower gate the files that it stops are left out, and nothing else changes. -/
theorem value_perform_narrower (hf : Format.ofName? o'.format = some format)
    (hn : format ≠ .annotated) (he : o.format = o'.format) (hi : o.inputs = o'.inputs)
    (hk : o.only = o'.only) (hg : ∀ p, o.gate.passesPath p → o'.gate.passesPath p)
    (h : ¬ Hindered s expand o') (hne : o'.inputs ≠ []) :
    (perform s expand o).value =
      ((eligible s expand o').filter o.gate.passesPath).flatMap (block s expand o' false) := by
  have h' : ¬ Hindered s expand o := fun hs => h (hs.mono hi hg)
  have hp : IsEligible s expand o' (eligible s expand o') := isEligible_eligible
  rw [value_perform_of_not_annotated (he ▸ hf) hn (hi ▸ hne) h', eligible_narrower hi hg h]
  refine List.flatMap_congr fun p hm => ?_
  obtain ⟨hm, hs⟩ := List.mem_filter.mp hm
  exact block_congr (he ▸ hf) he hk (hp.isFile hm) hs (hg p hs) (hp.not_unreportable h hm)

/-- Files that pass the wider gate only are added to those that are reported on. The others are
reported on in the same order and spelling, and unless there are headers, their reports are the same
as well. -/
theorem wider_gate_adds_files
    (ho : Options.ofArguments arguments = .ok { o with gate := .strict })
    (ho' : Options.ofArguments arguments' = .ok { o with gate := .permissive }) :
    filesToReport s.files expand .strict o.inputs =
      (filesToReport s.files expand .permissive o.inputs).map
        (List.filter Gate.strict.passesPath) ∧
    ((runWith s expand arguments').code = 0 → (runWith s expand arguments).code = 0 ∧
      (o.inputs ≠ [] → Format.ofName? o.format ≠ some .annotated →
        ∃ ps, filesToReport s.files expand .permissive o.inputs = .ok ps ∧
          (runWith s expand arguments').output =
            ps.flatMap (block s expand { o with gate := .permissive } false) ∧
          (runWith s expand arguments).output = (ps.filter Gate.strict.passesPath).flatMap
            (block s expand { o with gate := .permissive } false))) := by
  have hg : ∀ p, Gate.strict.passesPath p → Gate.permissive.passesPath p := fun p =>
    Gate.passesPath_of_strict .permissive
  refine ⟨filesToReport_narrower hg o.inputs, ?_⟩
  rw [runWith_eq_ofAttempt ho, runWith_eq_ofAttempt ho', code_ofAttempt_eq_zero_iff,
    code_ofAttempt_eq_zero_iff, output_ofAttempt, output_ofAttempt]
  intro hc
  have hc' : ¬ (perform s expand { o with gate := .strict }).Fails := fun h =>
    hc (@fails_perform_mono s expand { o with gate := .strict } { o with gate := .permissive }
      rfl rfl hg h)
  refine ⟨hc', fun hi hn => ?_⟩
  obtain ⟨format, hf⟩ := exists_format_of_not_fails hc
  have hna : format ≠ .annotated := fun he => hn (he ▸ hf)
  have hs : ¬ Hindered s expand { o with gate := .permissive } := by
    rwa [perform_files hf hi, fails_reportFiles_iff] at hc
  refine ⟨eligible s expand { o with gate := .permissive }, ?_, ?_, ?_⟩
  · exact @filesToReport_eq s expand { o with gate := .permissive }
      (not_unusable_of_not_hindered hs)
  · exact value_perform_of_not_annotated hf hna hi hs
  · exact @value_perform_narrower expand s { o with gate := .strict } _ _ hf hna rfl rfl rfl hg hs
      hi

/-- The wider gate adds a file in the middle of a directory. -/
theorem wider_gate_adds_files_directory :
    let s : Surroundings := { files := { entries := [(["s".toList], .directory),
      (["s".toList, "c.c".toList], .file "CALL(A, b, c /x/)\n".toUTF8),
      (["s".toList, "b.cc".toList], .file "NSCALL(n, f /1/)\n".toUTF8),
      (["s".toList, "a.h".toList], .file "MTD(K, m /y/)\n".toUTF8)] } }
    let expand := Glob.expand s.files
    let wide : Options := { inputs := ["s".toList], gate := .permissive }
    let ps : List Path := [⟨"s/a.h".toList⟩, ⟨"s/b.cc".toList⟩, ⟨"s/c.c".toList⟩]
    filesToReport s.files expand .permissive wide.inputs = .ok ps ∧
      filesToReport s.files expand .strict wide.inputs =
        .ok (ps.filter Gate.strict.passesPath) ∧
      (run s ["--cpp".toList, "s".toList]).code = 0 ∧ (run s ["s".toList]).code = 0 ∧
      (run s ["--cpp".toList, "s".toList]).output = ps.flatMap (block s expand wide false) ∧
      (run s ["--cpp".toList, "s".toList]).output =
        "s/a.h:1: K.m(y)\ns/b.cc:1: n::f(1)\ns/c.c:1: (A&)b.c(x)\n".toList ∧
      (run s ["s".toList]).output =
        (ps.filter Gate.strict.passesPath).flatMap (block s expand wide false) ∧
      (run s ["s".toList]).output = "s/a.h:1: K.m(y)\ns/c.c:1: (A&)b.c(x)\n".toList := by
  intro s expand wide ps
  have ho : Options.ofArguments ["s".toList] = .ok { wide with gate := .strict } := by
    decide +kernel
  have hw : Options.ofArguments ["--cpp".toList, "s".toList] = .ok wide := by decide +kernel
  have hps : filesToReport s.files expand .permissive wide.inputs = .ok ps := by
    have hg : (gather (argumentFiles s.files expand .permissive) wide.inputs).result =
        .ok [⟨"s/c.c".toList⟩, ⟨"s/b.cc".toList⟩, ⟨"s/a.h".toList⟩] := by decide +kernel
    have ha : Path.arrange [⟨"s/c.c".toList⟩, ⟨"s/b.cc".toList⟩, ⟨"s/a.h".toList⟩] = ps :=
      Path.arrange_eq_iff.mpr (by decide +kernel)
    rw [filesToReport_of_gather hg ha]
    decide +kernel
  have hl : ∀ a ∈ wide.inputs, s.files.isListable ⟨a⟩ := by decide +kernel
  have hm : ¬ ∃ a ∈ wide.inputs, Unusable s.files expand a := by
    rintro ⟨a, ha, hn⟩
    exact not_unusable_of_isListable (hl a ha) hn
  have he : IsEligible s expand wide ps := by
    rw [Except.ok.inj (hps.symm.trans (filesToReport_eq hm))]
    exact isEligible_eligible
  have hr : ∀ p ∈ ps, ¬ Unreportable s.files p := by
    have hu : ∀ p ∈ ps, ((s.files.content? p).bind decode?).isSome := by decide +kernel
    exact fun p hp => not_unreportable_of_isSome (hu p hp)
  have hb : ∀ p ∈ ps, block s expand wide false p =
      (reportFile s.files wide .listing false p).value := fun p => he.block_eq_value rfl hr
  have hc : (run s ["--cpp".toList, "s".toList]).code = 0 := by
    rw [run, runWith_files hw rfl (List.cons_ne_nil _ _), code_ofAttempt_eq_zero_iff,
      fails_reportFiles_iff, ← he.exists_unreportable_iff hm]
    rintro ⟨p, hp, hu⟩
    exact hr p hp hu
  obtain ⟨hn, h⟩ := @wider_gate_adds_files expand _ s wide _ ho hw
  obtain ⟨hc', h⟩ := h hc
  obtain ⟨qs, hqs, hv, hv'⟩ := h (List.cons_ne_nil _ _) (by decide)
  obtain rfl : ps = qs := Except.ok.inj (hps.symm.trans hqs)
  refine ⟨hps, by rw [hn, hps]; rfl, hc, hc', hv, ?_, hv', ?_⟩
  · refine hv.trans ((List.flatMap_congr hb).trans ?_)
    decide +kernel
  · refine hv'.trans ((List.flatMap_congr fun p hp => hb p (List.mem_of_mem_filter hp)).trans ?_)
    decide +kernel

end Command

end SourceMarkers
