import SourceMarkers.Command.Inputs
import SourceMarkers.Proofs.Routes

/-! # The files that arguments select

An argument selects the file it names, the files in a directory that pass the
gate, or the files that match a pattern. Only a pattern without a meaning and a
directory that the system refuses to list make the selection fail. Otherwise the
files are those that some argument selects, in strictly ascending order.
-/

namespace SourceMarkers.Command

namespace Attempt

variable {α β : Type} {x : Attempt α} {f : α → Attempt (List β)} {as : List α}

def Fails (x : Attempt α) : Prop := ∃ e, x.result = .error e

def value (x : Attempt (List β)) : List β :=
  match x.result with
  | .ok bs => bs
  | .error _ => []

@[simp] theorem not_fails_ok {log : List Log.Event} {a : α} : ¬ Fails ⟨log, .ok a⟩ := by
  rintro ⟨e, ⟨⟩⟩

@[simp] theorem fails_error {log : List Log.Event} {e : Failure} :
    Fails (⟨log, .error e⟩ : Attempt α) := ⟨e, rfl⟩

theorem eq_of_not_fails {x : Attempt (List β)} (h : ¬ x.Fails) : x = ⟨x.log, .ok x.value⟩ := by
  obtain ⟨log, _ | bs⟩ := x
  · exact absurd fails_error h
  · rfl

theorem fails_andThen_iff {x : Attempt α} {g : α → Attempt β} :
    (x.andThen g).Fails ↔ x.Fails ∨ ∃ a, x.result = .ok a ∧ (g a).Fails := by
  obtain ⟨log, e | a⟩ := x
  · simp [Fails]
  · simp [Fails]

theorem fails_andThen_done_iff {x : Attempt α} {g : α → β} :
    (x.andThen fun a => done (g a)).Fails ↔ x.Fails := by
  rw [fails_andThen_iff, or_iff_left]
  rintro ⟨a, -, ha⟩
  exact not_fails_ok ha

theorem result_andThen_done (x : Attempt α) (g : α → β) :
    (x.andThen fun a => done (g a)).result = x.result.map g := by
  obtain ⟨log, e | a⟩ := x <;> rfl

theorem fails_gather_iff : (gather f as).Fails ↔ ∃ a ∈ as, (f a).Fails := by
  induction as with
  | nil =>
    constructor
    · rintro ⟨e, ⟨⟩⟩
    · rintro ⟨a, ha, -⟩
      exact absurd ha List.not_mem_nil
  | cons a as ih =>
    rw [gather, fails_andThen_iff, List.exists_mem_cons_iff, ← ih]
    by_cases ha : (f a).Fails
    · exact iff_of_true (.inl ha) (.inl ha)
    · apply or_congr_right
      constructor
      · rintro ⟨b, -, hr⟩
        exact fails_andThen_done_iff.mp hr
      · intro hr
        have hv : (f a).result = .ok (f a).value := congrArg result (eq_of_not_fails ha)
        exact ⟨_, hv, fails_andThen_done_iff.mpr hr⟩

theorem gather_eq (h : ∀ a ∈ as, ¬ (f a).Fails) :
    gather f as = ⟨as.flatMap fun a => (f a).log, .ok (as.flatMap fun a => (f a).value)⟩ := by
  induction as with
  | nil => rfl
  | cons a as ih =>
    have ha := eq_of_not_fails (h a List.mem_cons_self)
    rw [gather, ha, andThen_ok, ih fun b hb => h b (List.mem_cons_of_mem a hb), andThen_ok]
    simp [done, List.flatMap_cons]

end Attempt

open Attempt

variable {t : FileTree} {expand : Expansion} {gate : Gate} {a : Text} {arguments : List Text}
  {p : Path} {ps : List Path}

/-- The argument selects the file. -/
inductive Selects (t : FileTree) (expand : Expansion) (gate : Gate) (a : Text) : Path → Prop where
  /-- The argument names the file. -/
  | named : t.isFile ⟨a⟩ → Selects t expand gate a ⟨a⟩
  /-- The argument names a directory that the file stands in, and the system lists it. -/
  | listed {name : Text} : t.isListable ⟨a⟩ → name ∈ t.names ⟨a⟩ →
      t.isFile (Path.join ⟨a⟩ name) → gate.passesPath (Path.join ⟨a⟩ name) →
      Selects t expand gate a (Path.join ⟨a⟩ name)
  /-- The argument is a pattern that the file matches. -/
  | found {ps : List Path} {p : Path} : ¬ t.isFile ⟨a⟩ → ¬ t.isDirectory ⟨a⟩ →
      expand a = .ok ps → p ∈ ps → t.isFile p → Selects t expand gate a p

/-- The argument is no file, no directory and no pattern that has a meaning. -/
def Meaningless (t : FileTree) (expand : Expansion) (a : Text) : Prop :=
  ¬ t.isFile ⟨a⟩ ∧ ¬ t.isDirectory ⟨a⟩ ∧ ∃ e, expand a = .error e

/-- The argument is a directory that the system refuses to list. -/
def Unlistable (t : FileTree) (a : Text) : Prop :=
  t.isDirectory ⟨a⟩ ∧ ∃ cause, t.refusal? ⟨a⟩ = some cause

def Unusable (t : FileTree) (expand : Expansion) (a : Text) : Prop :=
  Meaningless t expand a ∨ Unlistable t a

/-- The paths are the files that some argument selects, one spelling of each. -/
structure IsSelection (t : FileTree) (expand : Expansion) (gate : Gate) (arguments : List Text)
    (ps : List Path) : Prop where
  ascending : Path.Ascending ps
  selected : ∀ p ∈ ps, ∃ a ∈ arguments, Selects t expand gate a p
  complete : ∀ a ∈ arguments, ∀ p, Selects t expand gate a p → ∃ q ∈ ps, Path.same p q

theorem Selects.isFile (h : Selects t expand gate a p) : t.isFile p := by
  cases h with
  | named h => exact h
  | listed _ _ h _ => exact h
  | found _ _ _ _ h => exact h

theorem Selects.mono {gate' : Gate} (hg : ∀ p, gate.passesPath p → gate'.passesPath p)
    (h : Selects t expand gate a p) : Selects t expand gate' a p := by
  cases h with
  | named hf => exact .named hf
  | listed hd hn hf hp => exact .listed hd hn hf (hg _ hp)
  | found hf hd he hp hi => exact .found hf hd he hp hi

theorem not_unusable_of_isFile (ha : t.isFile ⟨a⟩) : ¬ Unusable t expand a := by
  rintro (⟨hf, -, -⟩ | ⟨hd, -⟩)
  · exact hf ha
  · exact FileTree.not_isFile_of_isDirectory hd ha

theorem not_unusable_of_isListable (ha : t.isListable ⟨a⟩) : ¬ Unusable t expand a := by
  obtain ⟨hd, hr⟩ := FileTree.isListable_iff.mp ha
  rintro (⟨-, hn, -⟩ | ⟨-, cause, hc⟩)
  · exact hn hd
  · cases hr.symm.trans hc

theorem selects_iff_of_isFile (ha : t.isFile ⟨a⟩) : Selects t expand gate a p ↔ p = ⟨a⟩ := by
  constructor
  · intro h
    cases h with
    | named => rfl
    | listed hl =>
      exact absurd ha (FileTree.not_isFile_of_isDirectory (FileTree.isListable_iff.mp hl).1)
    | found hn => exact absurd ha hn
  · rintro rfl
    exact .named ha

theorem mem_passing_iff : p ∈ passing t gate ⟨a⟩ ↔
    (∃ name ∈ t.names ⟨a⟩, Path.join ⟨a⟩ name = p) ∧ t.isFile p ∧ gate.passesPath p := by
  rw [passing, List.mem_filter, List.mem_map, Bool.and_eq_true]

theorem selects_iff_of_isDirectory (ha : t.isDirectory ⟨a⟩) :
    Selects t expand gate a p ↔ t.refusal? ⟨a⟩ = none ∧ p ∈ passing t gate ⟨a⟩ := by
  rw [mem_passing_iff]
  constructor
  · intro h
    cases h with
    | named hf => exact absurd hf (FileTree.not_isFile_of_isDirectory ha)
    | listed hl hn hf hg =>
      exact ⟨(FileTree.isListable_iff.mp hl).2, ⟨_, hn, rfl⟩, hf, hg⟩
    | found _ hd => exact absurd ha hd
  · rintro ⟨hr, ⟨name, hn, rfl⟩, hf, hg⟩
    exact .listed (FileTree.isListable_iff.mpr ⟨ha, hr⟩) hn hf hg

theorem selects_iff_of_pattern (hf : ¬ t.isFile ⟨a⟩) (hd : ¬ t.isDirectory ⟨a⟩) :
    Selects t expand gate a p ↔ ∃ ps, expand a = .ok ps ∧ p ∈ ps.filter t.isFile := by
  constructor
  · intro h
    cases h with
    | named h => exact absurd h hf
    | listed hl => exact absurd (FileTree.isListable_iff.mp hl).1 hd
    | found _ _ he hp hi => exact ⟨_, he, List.mem_filter.mpr ⟨hp, hi⟩⟩
  · rintro ⟨ps, he, hp⟩
    obtain ⟨hp, hi⟩ := List.mem_filter.mp hp
    exact .found hf hd he hp hi

theorem fails_directoryFiles_iff {d : Path} :
    (directoryFiles t gate d).Fails ↔ ∃ cause, t.refusal? d = some cause := by
  unfold directoryFiles
  cases t.refusal? d with
  | none => exact iff_of_false not_fails_ok (by simp)
  | some cause => exact iff_of_true fails_error ⟨cause, rfl⟩

theorem fails_patternFiles_iff : (patternFiles t expand a).Fails ↔ ∃ e, expand a = .error e := by
  unfold patternFiles
  cases expand a with
  | error e => exact iff_of_true fails_error ⟨e, rfl⟩
  | ok ps => exact iff_of_false not_fails_ok (by simp)

theorem fails_argumentFiles_iff :
    (argumentFiles t expand gate a).Fails ↔ Unusable t expand a := by
  unfold argumentFiles
  split
  · next hf => exact iff_of_false not_fails_ok (not_unusable_of_isFile hf)
  · next hf =>
    split
    · next hd =>
      rw [fails_directoryFiles_iff, Unusable, Meaningless, Unlistable]
      simp only [hd, not_true_eq_false, false_and, and_false, false_or, true_and]
    · next hd =>
      rw [fails_patternFiles_iff, Unusable, Meaningless, Unlistable]
      simp only [hf, hd, not_false_eq_true, true_and, false_and, or_false, Bool.false_eq_true]

theorem mem_value_argumentFiles_iff :
    p ∈ (argumentFiles t expand gate a).value ↔ Selects t expand gate a p := by
  unfold argumentFiles
  split
  · next hf =>
    rw [selects_iff_of_isFile hf]
    exact List.mem_singleton
  · next hf =>
    split
    · next hd =>
      rw [selects_iff_of_isDirectory hd, directoryFiles]
      cases t.refusal? ⟨a⟩ with
      | none => exact (and_iff_right rfl).symm
      | some cause => simp [Attempt.fail, Attempt.value]
    · next hd =>
      rw [selects_iff_of_pattern hf hd, patternFiles]
      cases expand a with
      | error e => simp [Attempt.fail, Attempt.value]
      | ok ps => simp [Attempt.value]

theorem fails_inputFiles_iff :
    (inputFiles t expand gate arguments).Fails ↔ ∃ a ∈ arguments, Unusable t expand a := by
  rw [inputFiles, Attempt.fails_andThen_done_iff, Attempt.fails_gather_iff]
  simp only [fails_argumentFiles_iff]

theorem result_inputFiles (h : (gather (argumentFiles t expand gate) arguments).result = .ok ps) :
    (inputFiles t expand gate arguments).result = .ok (Path.arrange ps) := by
  rw [inputFiles, result_andThen_done, h]
  rfl

def matchesNothing (t : FileTree) (expand : Expansion)
    (a : Text) : Bool :=
  !t.isFile ⟨a⟩ && !t.isDirectory ⟨a⟩ && match expand a with
    | .ok ps => (ps.filter t.isFile).isEmpty
    | .error _ => false

def notes (t : FileTree) (expand : Expansion)
    (arguments : List Text) : List Log.Event :=
  (arguments.filter (matchesNothing t expand)).map noMatch

theorem log_argumentFiles :
    (argumentFiles t expand gate a).log =
      if matchesNothing t expand a then [noMatch a] else [] := by
  unfold argumentFiles matchesNothing
  split
  · next hf => simp [hf, Attempt.done]
  · next hf =>
    split
    · next hd =>
      unfold directoryFiles
      cases t.refusal? ⟨a⟩ <;> simp [hd, Attempt.done, Attempt.fail]
    · next hd =>
      unfold patternFiles
      cases expand a <;> simp [hf, hd, Attempt.fail]

theorem flatMap_log_argumentFiles :
    (arguments.flatMap fun a => (argumentFiles t expand gate a).log) =
      notes t expand arguments := by
  unfold notes
  induction arguments with
  | nil => rfl
  | cons a arguments ih =>
    rw [List.flatMap_cons, ih, log_argumentFiles, List.filter_cons]
    split
    · rw [List.map_cons, List.singleton_append]
    · exact List.nil_append _

def given (t : FileTree) (expand : Expansion) (gate : Gate)
    (arguments : List Text) : List Path :=
  arguments.flatMap fun a => (argumentFiles t expand gate a).value

theorem mem_given_iff :
    p ∈ given t expand gate arguments ↔ ∃ a ∈ arguments, Selects t expand gate a p := by
  simp only [given, List.mem_flatMap, mem_value_argumentFiles_iff]

theorem inputFiles_eq (h : ¬ ∃ a ∈ arguments, Unusable t expand a) :
    inputFiles t expand gate arguments =
      ⟨notes t expand arguments, .ok (Path.arrange (given t expand gate arguments))⟩ := by
  have hm : ∀ a ∈ arguments, ¬ (argumentFiles t expand gate a).Fails :=
    fun a ha hf => h ⟨a, ha, fails_argumentFiles_iff.mp hf⟩
  rw [inputFiles, Attempt.gather_eq hm, Attempt.andThen_ok, Attempt.done, List.append_nil,
    flatMap_log_argumentFiles, given]

theorem isSelection_arrange :
    IsSelection t expand gate arguments (Path.arrange (given t expand gate arguments)) where
  ascending := Path.ascending_arrange _
  selected _ hp := mem_given_iff.mp (Path.mem_of_mem_arrange hp)
  complete a ha _ hp := Path.exists_same_arrange (mem_given_iff.mpr ⟨a, ha, hp⟩)

theorem exists_inputFiles_eq (h : ¬ ∃ a ∈ arguments, Unusable t expand a) :
    ∃ ps, inputFiles t expand gate arguments = ⟨notes t expand arguments, .ok ps⟩ ∧
      IsSelection t expand gate arguments ps :=
  ⟨_, inputFiles_eq h, isSelection_arrange⟩

end SourceMarkers.Command
