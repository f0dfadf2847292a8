import SourceMarkers.Text.Basic

/-! # Line continuations

A backslash at the end of a line continues the line: the backslash and the line
break, `\n` or `\r\n`, are no part of what is written.
-/

namespace SourceMarkers.Text

/-- A text without its line continuations. -/
def splice : Text → Text
  | '\\' :: '\n' :: t => splice t
  | '\\' :: '\r' :: '\n' :: t => splice t
  | c :: t => c :: splice t
  | [] => []

@[simp] theorem splice_nil : splice [] = [] := rfl

@[simp] theorem splice_continuation (t : Text) : splice ('\\' :: '\n' :: t) = splice t := by
  rw [splice]

@[simp] theorem splice_continuation_crlf (t : Text) :
    splice ('\\' :: '\r' :: '\n' :: t) = splice t := by
  rw [splice]

theorem splice_cons_of_ne {c : Char} (h : c ≠ '\\') (t : Text) :
    splice (c :: t) = c :: splice t := by
  rw [splice]
  · rintro _ rfl; exact absurd rfl h
  · rintro _ rfl; exact absurd rfl h

theorem splice_concat {c : Char} (h : c ≠ '\n') (t : Text) :
    splice (t ++ [c]) = splice t ++ [c] := by
  fun_induction splice t with
  | case1 t ih => rw [List.cons_append, List.cons_append, splice_continuation, ih]
  | case2 t ih =>
    rw [List.cons_append, List.cons_append, List.cons_append, splice_continuation_crlf, ih]
  | case3 d t hlf hcrlf ih =>
    rw [List.cons_append, splice, ih, List.cons_append]
    · rintro r rfl he
      rcases List.append_eq_cons_iff.mp he with ⟨-, hr⟩ | ⟨t, rfl, -⟩
      · exact h (List.cons.inj hr).1
      · exact hlf t rfl rfl
    · rintro r rfl he
      rcases List.append_eq_cons_iff.mp he with ⟨-, hr⟩ | ⟨t, rfl, hr⟩
      · cases hr
      · rcases List.append_eq_cons_iff.mp hr.symm with ⟨-, hr⟩ | ⟨t, rfl, -⟩
        · exact h (List.cons.inj hr).1
        · exact hcrlf t rfl rfl
  | case4 =>
    rw [List.nil_append, splice]
    · rfl
    · rintro _ - ⟨⟩
    · rintro _ - ⟨⟩

end SourceMarkers.Text
