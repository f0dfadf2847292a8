import SourceMarkers.Text.Basic

/-! # Readers

A reader takes a value off the beginning of a text. Whenever it reads something
it takes at least one character, so that reading again and again comes to an end.
-/

namespace SourceMarkers.Text

/-- A way to read a value at the beginning of a text. -/
structure Reader (α : Type) where
  /-- The value and what follows it, if a value can be read. -/
  read : Text → Option (α × Text)
  length_lt : ∀ {t a rest}, read t = some (a, rest) → rest.length < t.length

namespace Reader

variable {α β : Type} {r r' : Reader α} {a : α} {t rest : Text}

def one (f : Char → Option α) : Reader α where
  read
    | [] => none
    | c :: t => (f c).map fun a => (a, t)
  length_lt {t a rest} h := by
    cases t with
    | nil => cases h
    | cons c t =>
      obtain ⟨_, -, he⟩ := Option.map_eq_some_iff.mp h
      cases he
      exact Nat.lt_succ_self _

def char (c : Char) : Reader Unit := one fun d => if d = c then some () else none

def andThen (r : Reader α) (f : α → Reader β) : Reader β where
  read t := (r.read t).bind fun x => (f x.1).read x.2
  length_lt h := by
    obtain ⟨x, hx, hf⟩ := Option.bind_eq_some_iff.mp h
    exact Nat.lt_trans ((f x.1).length_lt hf) (r.length_lt hx)

def filterMap (r : Reader α) (f : α → Option β) : Reader β where
  read t := (r.read t).bind fun x => (f x.1).map fun b => (b, x.2)
  length_lt h := by
    obtain ⟨x, hx, hf⟩ := Option.bind_eq_some_iff.mp h
    obtain ⟨b, -, he⟩ := Option.map_eq_some_iff.mp hf
    cases he
    exact r.length_lt hx

def map (r : Reader α) (f : α → β) : Reader β := r.filterMap fun a => some (f a)

def orElse (r r' : Reader α) : Reader α where
  read t := (r.read t).or (r'.read t)
  length_lt h := by
    rcases Option.or_eq_some_iff.mp h with h | ⟨-, h⟩
    · exact r.length_lt h
    · exact r'.length_lt h

def after (skipped : Char → Bool) (r : Reader α) : Reader α where
  read t := r.read (t.dropWhile skipped)
  length_lt h := Nat.lt_of_lt_of_le (r.length_lt h) (List.dropWhile_suffix _).length_le

def readClosed (r : Reader α) (last : Reader Unit) (t : Text) : Option (List α × Text) :=
  match last.read t with
  | some (_, rest) => some ([], rest)
  | none =>
    match _h : r.read t with
    | some (a, rest) => (readClosed r last rest).map fun x => (a :: x.1, x.2)
    | none => none
termination_by t.length
decreasing_by exact r.length_lt ‹_›

/-- One value after the other, up to the end. -/
def closedBy (r : Reader α) (last : Reader Unit) : Reader (List α) where
  read := readClosed r last
  length_lt {t as rest} h := by
    fun_induction readClosed r last t generalizing as rest with
    | case1 t u rest' he =>
      cases h
      exact last.length_lt he
    | case2 t he a rest' hr ih =>
      obtain ⟨x, hx, hc⟩ := Option.map_eq_some_iff.mp h
      cases hc
      exact Nat.lt_trans (ih hx) (r.length_lt hr)
    | case3 => cases h

theorem read_one {f : Char → Option α} {c : Char} (h : f c = some a) :
    (one f).read (c :: t) = some (a, t) := by
  simp only [one, h, Option.map_some]

theorem read_one_eq_none {f : Char → Option α} {c : Char} (h : f c = none) :
    (one f).read (c :: t) = none := by
  simp only [one, h, Option.map_none]

theorem read_char {c : Char} : (char c).read (c :: t) = some ((), t) := read_one (if_pos rfl)

theorem read_char_of_ne {c d : Char} (h : d ≠ c) : (char c).read (d :: t) = none :=
  read_one_eq_none (if_neg h)

theorem read_andThen {f : α → Reader β} (h : r.read t = some (a, rest)) :
    (r.andThen f).read t = (f a).read rest := by
  simp only [andThen, h, Option.bind_some]

theorem read_andThen_eq_none {f : α → Reader β} (h : r.read t = none) :
    (r.andThen f).read t = none := by
  simp only [andThen, h, Option.bind_none]

theorem read_filterMap {f : α → Option β} {b : β} (h : r.read t = some (a, rest))
    (hf : f a = some b) : (r.filterMap f).read t = some (b, rest) := by
  simp only [filterMap, h, hf, Option.bind_some, Option.map_some]

theorem read_map {f : α → β} (h : r.read t = some (a, rest)) :
    (r.map f).read t = some (f a, rest) := read_filterMap h rfl

theorem read_map_eq_none {f : α → β} (h : r.read t = none) : (r.map f).read t = none := by
  simp only [map, filterMap, h, Option.bind_none]

theorem read_orElse_left {x : α × Text} (h : r.read t = some x) :
    (r.orElse r').read t = some x := by
  simp only [orElse, h, Option.some_or]

theorem read_orElse_right (h : r.read t = none) : (r.orElse r').read t = r'.read t := by
  simp only [orElse, h, Option.none_or]

theorem read_after {skipped : Char → Bool} {c : Char} (h : ¬ skipped c) :
    (r.after skipped).read (c :: t) = r.read (c :: t) := by
  simp only [after, List.dropWhile_cons_of_neg h]

/-- Values that are written one after the other are read so. `P` is what has to follow a value. -/
theorem read_closedBy {last : Reader Unit} {w : α → Text} {z : Text} {P : Text → Prop}
    (hz : last.read (z ++ rest) = some ((), rest)) (hPz : P (z ++ rest))
    (hl : ∀ a t, last.read (w a ++ t) = none) (hPw : ∀ a t, P (w a ++ t))
    (hr : ∀ a t, P t → r.read (w a ++ t) = some (a, t)) (as : List α) :
    (r.closedBy last).read (as.flatMap w ++ (z ++ rest)) = some (as, rest) := by
  change readClosed r last _ = _
  induction as with
  | nil => rw [List.flatMap_nil, List.nil_append, readClosed, hz]
  | cons a as ih =>
    have hP : P (as.flatMap w ++ (z ++ rest)) := by
      cases as with
      | nil => exact hPz
      | cons b bs =>
        rw [List.flatMap_cons, List.append_assoc]
        exact hPw b _
    rw [List.flatMap_cons, List.append_assoc, readClosed, hl]
    dsimp only
    split
    · next b rest' hb =>
      rw [hr a _ hP] at hb
      cases hb
      rw [ih, Option.map_some]
    · next hn =>
      rw [hr a _ hP] at hn
      cases hn

end Reader

end SourceMarkers.Text
