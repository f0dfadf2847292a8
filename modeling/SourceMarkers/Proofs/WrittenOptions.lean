import SourceMarkers.Command.Options

/-! # Options as arguments

What arguments ask for can be written as arguments again: the options first, each
with its value attached, and the inputs behind two dashes, so that none of them
is taken for an option. Read from left to right, they ask for the same.
-/

namespace SourceMarkers

theorem Kind.ofName?_keyword (k : Kind) : ofName? k.keyword = some k := by
  cases k <;> decide

theorem Dialect.ofName?_name (d : Dialect) : ofName? d.name = some d := by
  cases d <;> decide

namespace Command

def Valued.name : Valued → Text
  | format => "format".toList
  | lang => "lang".toList
  | only => "only".toList

def Valued.argument (v : Valued) (value : Text) : Text :=
  "--".toList ++ v.name ++ '=' :: value

/-- The arguments that ask for some options. -/
def Options.arguments (o : Options) : List Text :=
  [Valued.argument .format o.format, Valued.argument .lang o.dialect.name] ++
    (if o.gate = .permissive then ["--cpp".toList] else []) ++
    o.only.map (fun k => Valued.argument .only k.keyword) ++
    List.replicate o.verbosity "-v".toList ++ "--".toList :: o.inputs

namespace Reader

def withOptions (r : Reader) (options : Options) : Reader := { r with options }

/-- Nothing has been put off, and options are read. -/
def Ready (r : Reader) : Prop := r.pending = none ∧ r.inputsOnly = false

variable {r : Reader}

theorem settle_of_pending (h : r.pending = none) : r.settle = .ok r := by
  rw [settle, h]

theorem read_argument (h : r.Ready) (v : Valued) (value : Text) :
    r.read (v.argument value) = r.assign v value := by
  obtain ⟨options, _, _, _, pending, inputsOnly⟩ := r
  obtain ⟨rfl, rfl⟩ := h
  cases v <;> rfl

theorem read_verbose (h : r.Ready) :
    r.read "-v".toList =
      .ok (r.withOptions { r.options with verbosity := r.options.verbosity + 1 }) := by
  obtain ⟨options, _, _, _, pending, inputsOnly⟩ := r
  obtain ⟨rfl, rfl⟩ := h
  rfl

theorem read_input (hp : r.pending = none) (hi : r.inputsOnly) (a : Text) :
    r.read a = .ok (r.withOptions { r.options with inputs := r.options.inputs ++ [a] }) := by
  have ht : r.read a = r.takeInput a := if_pos hi
  rw [ht, takeInput, settle_of_pending hp]
  rfl

theorem foldlM_read_only (h : r.Ready) (ks : List Kind) :
    (ks.map fun k => Valued.argument .only k.keyword).foldlM read r =
      .ok (r.withOptions { r.options with only := r.options.only ++ ks }) := by
  induction ks generalizing r with
  | nil =>
    rw [List.append_nil]
    rfl
  | cons k ks ih =>
    have hk : r.read (Valued.argument .only k.keyword) =
        .ok (r.withOptions { r.options with only := r.options.only ++ [k] }) := by
      rw [read_argument h, assign, Kind.ofName?_keyword]
      rfl
    rw [List.map_cons, List.foldlM_cons, hk, List.append_cons _ k ks]
    exact ih h

theorem foldlM_read_verbose (h : r.Ready) (n : Nat) :
    (List.replicate n "-v".toList).foldlM read r =
      .ok (r.withOptions { r.options with verbosity := r.options.verbosity + n }) := by
  induction n generalizing r with
  | zero => rfl
  | succ n ih =>
    rw [List.replicate_succ, List.foldlM_cons, read_verbose h, Nat.add_comm n, ← Nat.add_assoc]
    exact ih h

theorem foldlM_read_inputs (hp : r.pending = none) (hi : r.inputsOnly) (inputs : List Text) :
    inputs.foldlM read r =
      .ok (r.withOptions { r.options with inputs := r.options.inputs ++ inputs }) := by
  induction inputs generalizing r with
  | nil =>
    rw [List.append_nil]
    rfl
  | cons a inputs ih =>
    rw [List.foldlM_cons, read_input hp hi, List.append_cons _ a inputs]
    exact ih hp hi

/-- The reader that has been asked for some options, and for nothing that is still put off. -/
def asked (o : Options) : Reader where
  options := o
  formatGiven := true
  dialectGiven := true
  gateGiven := o.gate = .permissive

theorem foldlM_read_append {r' : Reader} {as bs : List Text} (h : as.foldlM read r = .ok r') :
    (as ++ bs).foldlM read r = bs.foldlM read r' := by
  rw [List.foldlM_append, h]
  rfl

theorem foldlM_read_values (format : Text) (dialect : Dialect) :
    [Valued.argument .format format, Valued.argument .lang dialect.name].foldlM read {} =
      .ok (asked { format, dialect }) := by
  have hf : [Valued.argument .format format].foldlM read {} =
      .ok { options := { format }, formatGiven := true } := by
    rw [List.foldlM_cons, read_argument ⟨rfl, rfl⟩]
    rfl
  have hl : [Valued.argument .lang dialect.name].foldlM read
      { options := { format }, formatGiven := true } = .ok (asked { format, dialect }) := by
    rw [List.foldlM_cons, read_argument ⟨rfl, rfl⟩, assign, Dialect.ofName?_name]
    rfl
  rw [← List.singleton_append, foldlM_read_append hf, hl]

theorem foldlM_read_gate (format : Text) (dialect : Dialect) (gate : Gate) :
    (if gate = .permissive then ["--cpp".toList] else []).foldlM read (asked { format, dialect }) =
      .ok (asked { format, dialect, gate }) := by
  cases gate <;> rfl

theorem foldlM_read_dashes (o : Options) (inputs : List Text) :
    ("--".toList :: inputs).foldlM read (asked o) =
      inputs.foldlM read { asked o with inputsOnly := true } := by
  rw [List.foldlM_cons]
  rfl

end Reader

open Reader in
/-- Options are read as they are written. -/
theorem Options.ofArguments_arguments (o : Options) : ofArguments o.arguments = .ok o := by
  obtain ⟨format, dialect, only, gate, verbosity, inputs⟩ := o
  have hv := foldlM_read_values format dialect
  have hg := foldlM_read_gate format dialect gate
  have ho : _ = Except.ok (asked { format, dialect, gate, only }) :=
    foldlM_read_only (r := asked { format, dialect, gate }) ⟨rfl, rfl⟩ only
  have hn : _ = Except.ok (asked { format, dialect, gate, only, verbosity := 0 + verbosity }) :=
    foldlM_read_verbose (r := asked { format, dialect, gate, only }) ⟨rfl, rfl⟩ verbosity
  rw [Nat.zero_add] at hn
  have hd := foldlM_read_dashes { format, dialect, gate, only, verbosity } inputs
  have hi := foldlM_read_inputs
    (r := { asked { format, dialect, gate, only, verbosity } with inputsOnly := true })
    rfl rfl inputs
  rw [ofArguments, arguments, List.append_assoc, List.append_assoc, List.append_assoc,
    foldlM_read_append hv, foldlM_read_append hg, foldlM_read_append ho, foldlM_read_append hn, hd,
    hi]
  rfl

end Command

end SourceMarkers
