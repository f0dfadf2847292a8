import SourceMarkers.Proofs.FileSessions
import SourceMarkers.Proofs.Wiping

/-! # Inputs that do not pass the gate

A file that does not pass the gate is never read, and all that it causes is an
event that tells of it. The bytes of a standard input that does not pass the gate
are looked at all the same: whether they are UTF-8 decides how the session ends,
but nothing else about them matters.
-/

namespace SourceMarkers.Command

open Attempt Outcome

namespace Attempt

variable {α β : Type} {f g : α → Attempt (List β)} {as : List α}

theorem gather_congr (h : ∀ a ∈ as, f a = g a) : gather f as = gather g as := by
  induction as with
  | nil => rfl
  | cons a as ih =>
    rw [gather, gather, h a List.mem_cons_self, ih fun b hb => h b (List.mem_cons_of_mem a hb)]

end Attempt

section Selection

open FileTree

variable {t t' : FileTree}

theorem inputFiles_congr (h : SameShape t t') (gate : Gate) :
    inputFiles t (Glob.expand t) gate = inputFiles t' (Glob.expand t') gate := by
  have ha : argumentFiles t (Glob.expand t) gate = argumentFiles t' (Glob.expand t') gate := by
    funext a
    rw [argumentFiles, argumentFiles, h.isFile_eq, h.isDirectory_eq]
    split
    · rfl
    · split
      · next hd =>
        rw [directoryFiles, directoryFiles, passing, passing, h.refusal?_eq _ hd, h.isFile_eq,
          h.names_eq]
      · rw [patternFiles, patternFiles, Glob.expand_congr h, h.isFile_eq]
  funext arguments
  rw [inputFiles, inputFiles, ha]

end Selection

/-- The surroundings without what comes of reading the inputs that do not pass the gate. -/
def Surroundings.wiped (s : Surroundings) (o : Options) : Surroundings :=
  { s with
    files := s.files.wiped o.gate
    input := if o.gate.admits o.dialect then s.input else .empty }

/-- The surroundings differ in nothing but what comes of reading inputs that do not pass the gate. -/
def AgreeOnPassing (o : Options) (s s' : Surroundings) : Prop := s.wiped o = s'.wiped o

variable {s s' : Surroundings} {o : Options} {format : Format} {ps : List Path}
  {arguments : List Text}

theorem threshold_wiped : threshold (s.wiped o) o = threshold s o := rfl

theorem reportSelected_wiped :
    reportSelected (s.files.wiped o.gate) o format = reportSelected s.files o format := by
  funext ps
  rw [reportSelected, reportSelected]
  congr 1
  funext
  apply gather_congr
  intro p hp
  have hg : o.gate.passesPath p := List.of_mem_filter hp
  rw [reportFile, reportFile, FileTree.refusal?, FileTree.refusal?, FileTree.content?,
    FileTree.content?, FileTree.find?_wiped_of_passesPath hg]

theorem reportFiles_wiped :
    reportFiles (s.wiped o) (Glob.expand (s.wiped o).files) o format =
      reportFiles s (Glob.expand s.files) o format := by
  have hs : inputFiles (s.wiped o).files (Glob.expand (s.wiped o).files) o.gate =
      inputFiles s.files (Glob.expand s.files) o.gate :=
    inputFiles_congr (FileTree.sameShape_wiped s.files o.gate) o.gate
  have hr : reportSelected (s.wiped o).files o format = reportSelected s.files o format :=
    reportSelected_wiped
  rw [reportFiles_eq, reportFiles_eq, hs, hr]

theorem reportInput_wiped (hg : o.gate.admits o.dialect) :
    reportInput (s.wiped o) o format = reportInput s o format := by
  have hi : (s.wiped o).input = s.input := if_pos hg
  rw [reportInput, reportInput, hi]

/-- The bytes of inputs that do not pass the gate have no influence, unless the standard input is
such an input. -/
theorem run_wiped (ho : Options.ofArguments arguments = .ok o)
    (h : o.inputs = [] → (Format.ofName? o.format).isSome → o.gate.admits o.dialect) :
    run (s.wiped o) arguments = run s arguments := by
  have hp : perform (s.wiped o) (Glob.expand (s.wiped o).files) o =
      perform s (Glob.expand s.files) o := by
    unfold perform
    cases hf : Format.ofName? o.format with
    | none => rfl
    | some format =>
      dsimp only
      split
      · next hi => exact reportInput_wiped (h (List.isEmpty_iff.mp hi) (by rw [hf]; rfl))
      · exact reportFiles_wiped
  rw [run, run, runWith_eq_ofAttempt ho, runWith_eq_ofAttempt ho, hp, threshold_wiped]

theorem run_skippingInput (ho : Options.ofArguments arguments = .ok o) (hi : o.inputs = [])
    (hf : (Format.ofName? o.format).isSome) (hg : ¬ o.gate.admits o.dialect) :
    run s arguments = if (decode? s.input).isSome
      then ⟨0, [], Log.lines (threshold s o) [skippingInput o.dialect]⟩
      else ⟨1, [], Failure.undecodableInput.lines⟩ := by
  obtain ⟨format, hf⟩ := Option.isSome_iff_exists.mp hf
  rw [run, runWith_eq_ofAttempt ho, perform_input hf hi, reportInput]
  cases decode? s.input with
  | none => rfl
  | some text =>
    dsimp only
    rw [if_neg hg]
    rfl

def Outcome.after (messages : Text) (u : Outcome) : Outcome :=
  { u with messages := messages ++ u.messages }

theorem Outcome.ofAttempt_andThen {threshold : Log.Threshold} {events : List Log.Event}
    {x : Attempt Text} :
    ofAttempt threshold ((Attempt.tell events).andThen fun _ => x) =
      (ofAttempt threshold x).after (Log.lines threshold events) := by
  rw [tell_andThen]
  obtain ⟨log, e | output⟩ := x
  · simp [ofAttempt, after]
  · simp [ofAttempt, after]

/-- How a session on some named files ends. Without files there is nothing to do. -/
def runOn (s : Surroundings) (o : Options) (ps : List Path) : Outcome :=
  if ps = [] then ⟨0, [], []⟩ else run s (o.naming ps)

/-- What is told before selected files are reported on: the patterns that no file matches and the
files that do not pass the gate. -/
def warnings (s : Surroundings) (o : Options) (ps : List Path) : Text :=
  Log.lines (threshold s o)
    (notes s.files (Glob.expand s.files) o.inputs ++ skips o.gate ps)

theorem runOn_eq {expand : Expansion} (hf : Format.ofName? o.format = some format)
    (h : IsEligible s expand o ps) :
    runOn s o ps = ofAttempt (threshold s o)
      (gather (reportFile s.files o format (headed format ps)) ps) := by
  unfold runOn
  split
  · next hp =>
    subst hp
    rfl
  · next hp =>
    exact runWith_naming hf h.ascending (fun p => h.isFile) (fun p hp => (h.selected p hp).1) hp

/-- All that the files that do not pass the gate cause are warnings: but for these, a session ends
like one on the other files. -/
theorem exists_run_eq_after (ho : Options.ofArguments arguments = .ok o)
    (hf : (Format.ofName? o.format).isSome) (hi : o.inputs ≠ [])
    (hm : ¬ ∃ a ∈ o.inputs, Unusable s.files (Glob.expand s.files) a) :
    ∃ ps, IsSelection s.files (Glob.expand s.files) o.gate o.inputs ps ∧
      run s arguments = (runOn s o (ps.filter o.gate.passesPath)).after (warnings s o ps) := by
  obtain ⟨format, hf⟩ := Option.isSome_iff_exists.mp hf
  obtain ⟨ps, hps, hs⟩ := @exists_inputFiles_eq _ _ o.gate _ hm
  refine ⟨ps, hs, ?_⟩
  rw [run, runWith_files ho hf hi, reportFiles_eq, hps, andThen_ok, reportSelected, tell_andThen,
    runOn_eq hf hs.eligible, warnings, ← ofAttempt_andThen, tell_andThen, List.append_assoc]

theorem AgreeOnPassing.threshold_eq (h : AgreeOnPassing o s s') :
    threshold s o = threshold s' o := by
  have hw : s.wiped o = s'.wiped o := h
  rw [← threshold_wiped, hw, threshold_wiped]

theorem AgreeOnPassing.input_eq (h : AgreeOnPassing o s s') (hg : o.gate.admits o.dialect) :
    s.input = s'.input := by
  have hi : (s.wiped o).input = (s'.wiped o).input := congrArg Surroundings.input h
  rwa [Surroundings.wiped, Surroundings.wiped, if_pos hg, if_pos hg] at hi

/-- Bytes that do not pass the gate make a difference only if one standard input is UTF-8 and the
other is not. -/
theorem run_eq_run_iff (ho : Options.ofArguments arguments = .ok o) (h : AgreeOnPassing o s s') :
    run s arguments = run s' arguments ↔
      (o.inputs = [] → (Format.ofName? o.format).isSome →
        ((decode? s.input).isSome ↔ (decode? s'.input).isSome)) := by
  by_cases hc : o.inputs = [] → (Format.ofName? o.format).isSome → o.gate.admits o.dialect
  · constructor
    · intro _ hi hf
      rw [h.input_eq (hc hi hf)]
    · intro
      have hw : s.wiped o = s'.wiped o := h
      rw [← run_wiped ho hc, hw, run_wiped ho hc]
  · -- The bytes are decoded before the gate is asked, and nothing else is done with them.
    obtain ⟨hi, hf, hg⟩ : o.inputs = [] ∧ (Format.ofName? o.format).isSome ∧
        ¬ o.gate.admits o.dialect := by
      simpa only [Classical.not_imp] using hc
    rw [run_skippingInput ho hi hf hg, run_skippingInput ho hi hf hg, h.threshold_eq]
    cases hd : (decode? s.input).isSome <;> cases hd' : (decode? s'.input).isSome <;>
      simp [hi, hf]

/-- The bytes of inputs that do not pass the gate have no influence on a session but that a
standard input has to be UTF-8 all the same. All that such inputs cause are the events that tell
of them. -/
theorem ineligible_inputs_ignored (ho : Options.ofArguments arguments = .ok o)
    (h : AgreeOnPassing o s s') :
    (run s arguments = run s' arguments ↔
      (o.inputs = [] → (Format.ofName? o.format).isSome →
        ((decode? s.input).isSome ↔ (decode? s'.input).isSome))) ∧
    ((Format.ofName? o.format).isSome → o.inputs ≠ [] →
      (¬ ∃ a ∈ o.inputs, Unusable s.files (Glob.expand s.files) a) →
      ∃ ps, IsSelection s.files (Glob.expand s.files) o.gate o.inputs ps ∧
        run s arguments = (runOn s o (ps.filter o.gate.passesPath)).after (warnings s o ps)) ∧
    ((Format.ofName? o.format).isSome → o.inputs = [] → ¬ o.gate.admits o.dialect →
      (decode? s.input).isSome →
      run s arguments = ⟨0, [], Log.lines (threshold s o) [skippingInput o.dialect]⟩) := by
  refine ⟨?_, ?_, ?_⟩
  · exact run_eq_run_iff ho h
  · exact exists_run_eq_after ho
  · intro hf hi hg hd
    rw [run_skippingInput ho hi hf hg, if_pos hd]

/-- A C++ source beside a C source may hold any bytes. -/
theorem ineligible_inputs_ignored_source :
    let surroundings (content : ByteArray) : Surroundings := { files := { entries := [
      (["a.c".toList], .file ⟨#[0x61]⟩), (["b.cpp".toList], .file content)] } }
    let arguments := ["b.cpp", "a.c"].map String.toList
    run (surroundings ⟨#[0x62]⟩) arguments = run (surroundings ⟨#[0xff]⟩) arguments := by
  intro surroundings arguments
  have ho : Options.ofArguments arguments = .ok { inputs := arguments } := by decide +kernel
  have ha : AgreeOnPassing { inputs := arguments } (surroundings ⟨#[0x62]⟩)
      (surroundings ⟨#[0xff]⟩) := rfl
  apply (ineligible_inputs_ignored ho ha).1.mpr
  intro hi
  exact absurd hi (List.cons_ne_nil _ _)

/-- A standard input in C++ has to be UTF-8. -/
theorem undecodable_ineligible_input :
    let o : Options := { dialect := .cpp }
    let arguments := ["--lang", "cpp"].map String.toList
    let s : Surroundings := { input := ⟨#[0xff]⟩ }
    Options.ofArguments arguments = .ok o ∧ ¬ o.gate.admits o.dialect ∧ AgreeOnPassing o s {} ∧
      run {} arguments =
        ⟨0, [], " WARN skipping <stdin>: not an eligible file type (cpp)\n".toList⟩ ∧
      run s arguments = ⟨1, [],
        ("Error: failed to read stdin\n\nCaused by:\n" ++
          "    stream did not contain valid UTF-8\n").toList⟩ := by
  refine ⟨?_, ?_, rfl, ?_, ?_⟩ <;> decide +kernel

end SourceMarkers.Command
