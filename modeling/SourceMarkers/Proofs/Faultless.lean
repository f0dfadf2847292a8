import SourceMarkers.Annotation
import SourceMarkers.Proofs.CheckedFields

/-! # A search without faults

The search for markers goes on from byte offset to byte offset, and an
annotation is indented as far as a byte offset in its line. With each step
checked, the search and the annotations are what they are without checks.
-/

namespace SourceMarkers

open Nesting Segment

namespace Kind

def openers : List Text :=
  [namespaceCall.opener, namespaceMethod.opener, objectCall.opener, classMethod.opener]

def checkedOfKeyword (word : Text) : Checked Kind :=
  match ofKeyword? word with
  | some k => .ok k
  | none => .error (.noKeyword word)

end Kind

namespace Document

/-- What a keyword turns out to be whose parenthesis stands at a byte offset, with the offset from
which the search goes on. -/
def checkedOutcome (d : Document) (kind : Kind) (start opening : Nat) : Checked (Finding × Nat) :=
  match d.text.closingOffset? opening with
  | none => .ok (.unclosed start kind, opening)
  | some close => do
    let body ← d.text.checkedSlice (opening + 1) close
    match ← Fields.read kind body with
    | none => .ok (.malformed ⟨start, close⟩ kind (d.lineAt start), close + 1)
    | some fields =>
      .ok (.marker ⟨start, close⟩ (.ofFields kind fields (d.lineAt start) (d.lineAt close)),
        close + 1)

def checkedFinding (d : Document) (start stop : Nat) : Checked (Finding × Nat) := do
  let opening ← Checked.pred stop
  let word ← d.text.checkedSlice start opening
  let kind ← Kind.checkedOfKeyword word
  d.checkedOutcome kind start opening

def checkedFindings (d : Document) (cursor : Nat) : Checked (List Finding) :=
  match h : d.text.findFrom Kind.openers cursor with
  | .error fault => .error fault
  | .ok none => .ok []
  | .ok (some (start, stop)) =>
    match d.checkedFinding start stop with
    | .error fault => .error fault
    | .ok (f, next) =>
      if cursor < next then
        have := Text.le_size_of_findFrom h
        (d.checkedFindings next).map (f :: ·)
      else .error (.stuck cursor next)
termination_by Text.size d.text + 1 - cursor

/-- The place of a marker, with the text before its keyword taken out of the line. -/
def checkedPlacement (d : Document) (m : Marker) : Checked Placement :=
  match d.line? m.lastLine with
  | none => .ok (.pastEnd m.kind m.lastLine d.lineCount)
  | some line => do
    match ← line.findFrom [m.kind.opener] 0 with
    | none => .ok (.noKeyword m.kind m.lastLine)
    | some (column, _) =>
      let before ← line.checkedSlice 0 column
      .ok (.shown ⟨m.lastLine, Placement.indent before, m.signature⟩)

end Document

namespace Kind

variable {k : Kind} {t w : Text}

theorem mem_openers_iff : w ∈ openers ↔ ∃ k : Kind, w = k.opener := by
  constructor
  · intro h
    simp only [openers, List.mem_cons, List.not_mem_nil, or_false] at h
    rcases h with rfl | rfl | rfl | rfl <;> exact ⟨_, rfl⟩
  · rintro ⟨k, rfl⟩
    cases k <;> decide

theorem isAscii_opener (k : Kind) : Text.isAscii k.opener := by cases k <;> rfl

theorem searchable_openers : Text.Searchable openers := by
  intro w hw
  obtain ⟨k, rfl⟩ := mem_openers_iff.mp hw
  exact ⟨k.opener_ne_nil, k.isAscii_opener⟩

theorem find?_openers :
    (openers.find? fun w => w.isPrefixOf (k.opener ++ t)) = some k.opener := by
  cases k <;> rfl

end Kind

namespace Document

variable {d : Document} {k : Kind} {s t body : Text} {ss : List Segment} {c : Char}
  {i j next : Nat} {fs : List Finding} {f : Finding}

theorem findFrom_opener (hd : d.text = s ++ (k.opener ++ t)) :
    d.text.findFrom Kind.openers (Text.size s) =
      .ok (some (Text.size s, Text.size (s ++ k.opener))) := by
  obtain ⟨c, rest, hc⟩ := k.exists_opener_append_eq_cons t
  rw [hd, Text.findFrom_append, hc, Text.occurrence?_utf8_cons Kind.searchable_openers, ← hc,
    Kind.find?_openers]
  simp

theorem checkedSlice_append {u : Text} (hd : d.text = s ++ (u ++ t)) :
    d.text.checkedSlice (Text.size s) (Text.size (s ++ u)) = .ok u :=
  Text.checkedSlice_eq_ok_iff.mpr ⟨s, t, hd, rfl, rfl⟩

theorem checkedFinding_eq (hd : d.text = s ++ (k.opener ++ t)) :
    d.checkedFinding (Text.size s) (Text.size (s ++ k.opener)) =
      d.checkedOutcome k (Text.size s) (Text.size (s ++ k.keyword)) := by
  have ho : Checked.pred (Text.size (s ++ k.opener)) = .ok (Text.size (s ++ k.keyword)) := by
    rw [size_append_opener]
    rfl
  have hword : d.text.checkedSlice (Text.size s) (Text.size (s ++ k.keyword)) = .ok k.keyword :=
    checkedSlice_append (t := '(' :: t) (by simp [hd, Kind.opener])
  have hk : Kind.checkedOfKeyword k.keyword = .ok k := by
    rw [Kind.checkedOfKeyword, Kind.ofKeyword?_keyword]
  rw [checkedFinding, ho, Checked.ok_bind, hword, Checked.ok_bind, hk, Checked.ok_bind]

theorem checkedOutcome_unclosed (ht : t.LeavesOpen) (hd : d.text = s ++ (k.opener ++ t)) :
    d.checkedOutcome k (Text.size s) (Text.size (s ++ k.keyword)) =
      .ok (.unclosed (Text.size s) k, Text.size (s ++ k.keyword)) := by
  rw [checkedOutcome, Text.size_append, closingOffset?_of_leavesOpen ht hd]

theorem checkedOutcome_marked (hb : body.Balanced)
    (hd : d.text = s ++ (k.opener ++ (body ++ ')' :: t))) :
    d.checkedOutcome k (Text.size s) (Text.size (s ++ k.keyword)) =
      .ok (d.findingAt (Text.size s) k, Text.size (s ++ (k.opener ++ body) ++ [')'])) := by
  have ho : Text.size s + Text.size k.keyword + 1 = Text.size (s ++ k.opener) := by
    rw [size_append_opener, Text.size_append]
  have hn : Text.size (s ++ (k.opener ++ body)) + 1 =
      Text.size (s ++ (k.opener ++ body) ++ [')']) := by
    rw [Text.size_append (t := [')'])]
    rfl
  have hbody : d.text.checkedSlice (Text.size (s ++ k.opener))
      (Text.size (s ++ (k.opener ++ body))) = .ok body := by
    rw [← List.append_assoc]
    exact checkedSlice_append (t := ')' :: t) (by simp [hd])
  rw [checkedOutcome, findingAt, Text.size_append, closingOffset?_of_balanced hb hd]
  simp only [ho, hn, hbody, Text.slice_eq_of_checkedSlice hbody, Checked.ok_bind, Fields.read_eq]
  cases Fields.ofBody? k body <;> rfl

theorem checkedFindings_eq_nil (h : d.text.findFrom Kind.openers i = .ok none) :
    d.checkedFindings i = .ok [] := by
  rw [checkedFindings]
  split
  · next he => rw [h] at he; cases he
  · rfl
  · next he => rw [h] at he; cases he

theorem checkedFindings_eq_cons {start stop : Nat}
    (h : d.text.findFrom Kind.openers i = .ok (some (start, stop)))
    (hf : d.checkedFinding start stop = .ok (f, next)) (hi : i < next)
    (hn : d.checkedFindings next = .ok fs) : d.checkedFindings i = .ok (f :: fs) := by
  rw [checkedFindings]
  split
  · next he => rw [h] at he; cases he
  · next he => rw [h] at he; cases he
  · next he =>
    rw [h] at he
    cases he
    rw [hf]
    simp only [if_pos hi, hn]
    rfl

/-- A search that comes by no opener before an offset is one from there on. -/
theorem checkedFindings_eq_of_findFrom_eq
    (h : d.text.findFrom Kind.openers i = d.text.findFrom Kind.openers j) (hij : i ≤ j)
    (hj : d.checkedFindings j = .ok fs) : d.checkedFindings i = .ok fs := by
  rw [checkedFindings] at hj
  split at hj
  · cases hj
  · next he =>
    cases hj
    exact checkedFindings_eq_nil (h.trans he)
  · next start stop he =>
    split at hj
    · cases hj
    · next f next hf =>
      split at hj
      · next hn =>
        cases hc : d.checkedFindings next with
        | error fault => rw [hc] at hj; cases hj
        | ok fs =>
          rw [hc] at hj
          cases hj
          exact checkedFindings_eq_cons (h.trans he) hf (Nat.lt_of_le_of_lt hij hn) hc
      · cases hj

theorem checkedFindings_skip (hk : ∀ k : Kind, ¬ k.opener <+: c :: t) (hd : d.text = s ++ c :: t)
    (h : d.checkedFindings (Text.size (s ++ [c])) = .ok fs) :
    d.checkedFindings (Text.size s) = .ok fs := by
  refine checkedFindings_eq_of_findFrom_eq ?_ ?_ h
  · rw [hd]
    refine Text.findFrom_append_cons Kind.searchable_openers fun w hw => ?_
    obtain ⟨k, rfl⟩ := Kind.mem_openers_iff.mp hw
    exact hk k
  · exact Text.size_le_size_append _ _

/-- A search that begins where a segment does tells of the segments from there on. -/
theorem checkedFindings_of_cut (h : Cut [] t ss) (hd : d.text = s ++ t) :
    d.checkedFindings (Text.size s) = .ok (Finding.ofSegments (Position.after {} s) ss) := by
  induction h generalizing s with
  | nil =>
    apply checkedFindings_eq_nil
    rw [hd, Text.findFrom_append]
    rfl
  | @plain c t ss hk _ ih =>
    have hi := ih (s := s ++ [c]) (by simp [hd])
    rw [Position.after_append] at hi
    exact checkedFindings_skip hk hd hi
  | @unclosed k t ss ht _ ih =>
    have hp : ∀ k : Kind, ¬ k.opener <+: '(' :: t :=
      Kind.not_opener_prefix_cons fun k => by cases k <;> decide
    -- The cut goes on behind the parenthesis, the search in front of it.
    have hi := ih (s := s ++ k.keyword ++ ['(']) (by simp [hd, Kind.opener])
    have hn := checkedFindings_skip hp (by simp [hd, Kind.opener]) hi
    have hf : Finding.ofSegment? (Position.after {} s) (.unclosed k) =
        some (.unclosed (Text.size s) k) := by
      rw [Finding.ofSegment?, Position.offset_after, Nat.zero_add]
    have hlt : Text.size s < Text.size (s ++ k.keyword) := by
      rw [Text.size_append]
      exact Nat.lt_add_of_pos_right (Text.size_pos k.keyword_ne_nil)
    rw [Position.after_append, Position.after_append] at hn
    rw [Finding.ofSegments, hf]
    exact checkedFindings_eq_cons (findFrom_opener hd)
      ((checkedFinding_eq hd).trans (checkedOutcome_unclosed ht hd)) hlt hn
  | @marked k body t ss hb _ ih =>
    have hi := ih (s := s ++ (k.opener ++ body) ++ [')']) (by simp [hd])
    have hlt : Text.size s < Text.size (s ++ (k.opener ++ body) ++ [')']) := by
      rw [List.append_assoc, Text.size_append]
      exact Nat.lt_add_of_pos_right (Text.size_pos (by simp))
    have hs : Position.after {} (s ++ (k.opener ++ body) ++ [')']) =
        (Position.after {} s).after (source (.marked k body)) := by
      rw [List.append_assoc, Position.after_append]
      rfl
    rw [hs] at hi
    rw [Finding.ofSegments, findingAt_marked hb hd]
    exact checkedFindings_eq_cons (findFrom_opener hd)
      ((checkedFinding_eq hd).trans (checkedOutcome_marked hb hd)) hlt hi

theorem checkedPlacement_eq (d : Document) (m : Marker) :
    d.checkedPlacement m = .ok (Placement.ofMarker d m) := by
  unfold checkedPlacement Placement.ofMarker
  cases d.line? m.lastLine with
  | none => rfl
  | some line =>
    dsimp only
    rw [Text.findFrom_singleton m.kind.opener_ne_nil m.kind.isAscii_opener, Checked.ok_bind]
    cases hb : Text.before? m.kind.opener line with
    | none => rfl
    | some before =>
      obtain ⟨after, ha⟩ := Text.eq_append_of_before?_eq_some hb
      have hs : line.checkedSlice 0 (Text.size before) = .ok before :=
        Text.checkedSlice_eq_ok_iff.mpr ⟨[], m.kind.opener ++ after, by simp [ha], rfl, rfl⟩
      simp only [Option.map_some, hs, Checked.ok_bind]

/-- No step of the search fails, and none of placing a marker: the search goes on behind each
offset from which it began, an opener that is found is that of a kind, and every part that is taken
out of the text lies in it and between two characters. -/
theorem search_faultless (d : Document) :
    d.checkedFindings 0 = .ok d.findings ∧
      ∀ m, d.checkedPlacement m = .ok (Placement.ofMarker d m) :=
  ⟨checkedFindings_of_cut (s := []) (cut_ofText d.text) rfl, checkedPlacement_eq d⟩

end Document

end SourceMarkers
