import SourceMarkers.Command.Session
import SourceMarkers.Proofs.Selection
import SourceMarkers.Proofs.WrittenOptions

/-! # Reports on files

The report on a file is made of whole lines. It does not depend on the other
files but for the header, and it fails only if the system refuses to read the file
or the file is not UTF-8. Of the files that the arguments give, those that do not
pass the gate are told of before the others are reported on.
-/

namespace SourceMarkers

namespace Text

/-- A text of whole lines: it is empty or ends in a line break. -/
def IsClosed (t : Text) : Prop := t = [] ∨ t.getLast? = some '\n'

variable {t u : Text}

theorem IsClosed.append (ht : IsClosed t) (hu : IsClosed u) : IsClosed (t ++ u) := by
  rcases hu with rfl | hu
  · rwa [List.append_nil]
  · right
    rw [List.getLast?_append, hu, Option.some_or]

end Text

namespace Report

open Text

end Report

namespace Command

open Text

namespace Attempt

variable {α β : Type} {f : α → Attempt (List β)} {g : α → Attempt β} {x : Attempt α}

theorem andThen_done_append_nil (x : Attempt (List β)) :
    (x.andThen fun b => done (b ++ [])) = x := by
  obtain ⟨log, e | b⟩ := x
  · rfl
  · rw [andThen_ok, List.append_nil, done, List.append_nil]

theorem tell_andThen {events : List Log.Event} {h : Unit → Attempt β} :
    (Attempt.tell events).andThen h = ⟨events ++ (h ()).log, (h ()).result⟩ := rfl

theorem value_of_fails {x : Attempt (List β)} (h : x.Fails) : x.value = [] := by
  obtain ⟨e, he⟩ := h
  rw [value, he]

theorem gather_singleton (a : α) : gather f [a] = f a := andThen_done_append_nil (f a)

theorem gather_map_eq_done {g : β → α} {bs : List β} (h : ∀ b ∈ bs, f (g b) = done [b]) :
    gather f (bs.map g) = done bs := by
  induction bs with
  | nil => rfl
  | cons b bs ih =>
    have hb := h b List.mem_cons_self
    have hr := ih fun c hc => h c (List.mem_cons_of_mem b hc)
    rw [List.map_cons, gather, hb, done_andThen, hr, done_andThen, List.singleton_append]

end Attempt

open Attempt

namespace Outcome

variable {threshold : Log.Threshold} {a : Attempt Text}

theorem code_ofAttempt_eq_one_iff : (ofAttempt threshold a).code = 1 ↔ a.Fails := by
  obtain ⟨log, e | output⟩ := a
  · simp [ofAttempt]
  · simp [ofAttempt]

theorem code_ofAttempt_eq_zero_iff : (ofAttempt threshold a).code = 0 ↔ ¬ a.Fails := by
  obtain ⟨log, e | output⟩ := a
  · simp [ofAttempt]
  · simp [ofAttempt]

theorem output_ofAttempt : (ofAttempt threshold a).output = a.value := by
  obtain ⟨log, e | output⟩ := a <;> rfl

end Outcome

def Undecodable (t : FileTree) (p : Path) : Prop :=
  ∃ bytes, t.content? p = some bytes ∧ decode? bytes = none

def Unreadable (t : FileTree) (p : Path) : Prop := ∃ cause, t.refusal? p = some cause

def Unreportable (t : FileTree) (p : Path) : Prop := Undecodable t p ∨ Unreadable t p

variable {s : Surroundings} {expand : Expansion} {o : Options} {format : Format} {headers : Bool}
  {t : FileTree} {p q : Path} {ps : List Path}

theorem unreportable_congr (h : Path.same p q) (hp : t.isFile p) (hq : t.isFile q) :
    Unreportable t p ↔ Unreportable t q := by
  rw [Unreportable, Unreportable, Undecodable, Undecodable, Unreadable, Unreadable,
    FileTree.content?, FileTree.content?, FileTree.refusal?, FileTree.refusal?,
    FileTree.find?_congr h hp hq]

theorem not_unreportable_of_isSome (h : ((t.content? p).bind decode?).isSome) :
    ¬ Unreportable t p := by
  obtain ⟨text, ht⟩ := Option.isSome_iff_exists.mp h
  obtain ⟨bytes, hb, hd⟩ := Option.bind_eq_some_iff.mp ht
  rintro (⟨bytes', hb', hn⟩ | ⟨cause, hr⟩)
  · cases hb.symm.trans hb'
    cases hd.symm.trans hn
  · cases (FileTree.refusal?_eq_none hb).symm.trans hr

theorem exists_reportFile_eq_fail (h : Unreportable t p) :
    ∃ e, reportFile t o format headers p = fail e := by
  rcases h with ⟨bytes, hb, hd⟩ | ⟨cause, hr⟩
  · refine ⟨.undecodableFile p, ?_⟩
    rw [reportFile, FileTree.refusal?_eq_none hb]
    dsimp only
    rw [hb, Option.bind_some, hd]
  · refine ⟨.unreadableFile p cause, ?_⟩
    rw [reportFile, hr]

theorem exists_reportFile_eq (hp : t.isFile p) (h : ¬ Unreportable t p) :
    ∃ text, ∀ headers, reportFile t o format headers p =
      reportSource format o.only headers p.spelling text := by
  have hr : t.refusal? p = none := Option.eq_none_iff_forall_ne_some.mpr fun cause hc =>
    h (.inr ⟨cause, hc⟩)
  obtain ⟨bytes, hb⟩ := Option.isSome_iff_exists.mp (FileTree.isSome_content? hp hr)
  obtain ⟨text, ht⟩ := Option.ne_none_iff_exists'.mp fun hd => h (.inl ⟨bytes, hb, hd⟩)
  refine ⟨text, fun headers => ?_⟩
  rw [reportFile, hr]
  dsimp only
  rw [hb, Option.bind_some, ht]

theorem fails_reportFile_iff (hp : t.isFile p) :
    (reportFile t o format headers p).Fails ↔ Unreportable t p := by
  constructor
  · intro hf
    by_contra hu
    obtain ⟨text, ht⟩ := @exists_reportFile_eq o format t p hp hu
    rw [ht headers] at hf
    exact not_fails_ok hf
  · intro hu
    obtain ⟨e, he⟩ := @exists_reportFile_eq_fail o format headers t p hu
    rw [he]
    exact fails_error

theorem value_reportFile (hp : t.isFile p) (h : ¬ Unreportable t p) :
    (reportFile t o format headers p).value =
      (if headers then header p.spelling else []) ++ (reportFile t o format false p).value := by
  obtain ⟨text, ht⟩ := @exists_reportFile_eq o format t p hp h
  rw [ht, ht]
  rfl

theorem inputFiles_of_ascending {gate : Gate}
    (h : Path.Ascending ps) (hp : ∀ p ∈ ps, t.isFile p) :
    inputFiles t expand gate (ps.map Path.spelling) = ⟨[], .ok ps⟩ := by
  have hg : gather (argumentFiles t expand gate) (ps.map Path.spelling) = done ps :=
    gather_map_eq_done fun p hm => if_pos (hp p hm)
  rw [inputFiles, hg, done_andThen, Path.arrange_of_ascending h, done]

/-- There are headers just in the annotated report on more than one file. -/
def headed (format : Format) (ps : List Path) : Bool := format = .annotated && 2 ≤ ps.length

def skips (gate : Gate) (ps : List Path) : List Log.Event :=
  (ps.filter (! gate.passesPath ·)).map fun p => skipping p.spelling

/-- Some selected files: those that do not pass the gate are told of, and then the others are
reported on. -/
def reportSelected (t : FileTree) (o : Options) (format : Format) (ps : List Path) : Attempt Text :=
  (Attempt.tell (skips o.gate ps)).andThen fun _ =>
    gather (reportFile t o format (headed format (ps.filter o.gate.passesPath)))
      (ps.filter o.gate.passesPath)

theorem reportFiles_eq :
    reportFiles s expand o format =
      (inputFiles s.files expand o.gate o.inputs).andThen (reportSelected s.files o format) := by
  have hs : reportSelected s.files o format = fun paths =>
      let parts := paths.partition o.gate.passesPath
      (Attempt.tell (parts.2.map fun p => skipping p.spelling)).andThen fun _ =>
        gather (reportFile s.files o format (headed format parts.1)) parts.1 := by
    funext paths
    rw [List.partition_eq_filter_filter]
    rfl
  rw [hs]
  rfl

theorem fails_reportSelected_iff :
    (reportSelected t o format ps).Fails ↔
      ∃ p ∈ ps.filter o.gate.passesPath,
        (reportFile t o format (headed format (ps.filter o.gate.passesPath)) p).Fails :=
  fails_gather_iff

theorem reportSelected_of_passes (h : ∀ p ∈ ps, o.gate.passesPath p) :
    reportSelected t o format ps = gather (reportFile t o format (headed format ps)) ps := by
  have he : ps.filter o.gate.passesPath = ps := List.filter_eq_self.mpr h
  have hs : skips o.gate ps = [] := by
    rw [skips, List.map_eq_nil_iff, List.filter_eq_nil_iff]
    intro p hp
    simp [h p hp]
  rw [reportSelected, he, hs]
  rfl

end Command

end SourceMarkers
