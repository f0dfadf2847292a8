import SourceMarkers.Text.Basic

/-! # Kinds of markers

A marker names either a method of a class or a function of a namespace, and
either calls it or defines it. The keyword in front of the parenthesis gives
the kind.
-/

namespace SourceMarkers

inductive Kind where
  /-- A method called on an object. -/
  | objectCall
  /-- A function of a namespace that is called. -/
  | namespaceCall
  /-- The definition of a method of a class. -/
  | classMethod
  /-- The definition of a function of a namespace. -/
  | namespaceMethod
deriving DecidableEq, Repr

namespace Kind

/-- All kinds, in the order in which names are looked up. -/
def all : List Kind := [.objectCall, .namespaceCall, .classMethod, .namespaceMethod]

/-- The word in front of the parenthesis of a marker. -/
def keyword : Kind → Text
  | objectCall => "CALL".toList
  | namespaceCall => "NSCALL".toList
  | classMethod => "MTD".toList
  | namespaceMethod => "NSMTD".toList

def label : Kind → Text
  | objectCall => "call".toList
  | namespaceCall => "ns_call".toList
  | classMethod => "method_def".toList
  | namespaceMethod => "ns_method_def".toList

def opener (k : Kind) : Text := k.keyword ++ ['(']

/-- The owner of the named function is a namespace. -/
def namespaced : Kind → Bool
  | namespaceCall | namespaceMethod => true
  | objectCall | classMethod => false

/-- The marker names an object that receives the call. -/
def hasReceiver : Kind → Bool
  | objectCall => true
  | _ => false

def fieldCount (k : Kind) : Nat := if k.hasReceiver then 3 else 2

def ofKeyword? (word : Text) : Option Kind := all.find? fun k => k.keyword = word

/-- The kind with a given name, which is its keyword in capital or small letters or its label. -/
def ofName? (name : Text) : Option Kind :=
  all.find? fun k => Text.lower k.keyword = Text.lower name || k.label = name

def unknownMessage (name : Text) : Text :=
  "unknown marker kind: ".toList ++ name ++ ". Use CALL, NSCALL, MTD or NSMTD".toList

/-- The kind of the marker that may begin a text. -/
def opening? (t : Text) : Option Kind := all.find? fun k => k.opener.isPrefixOf t

@[simp] theorem mem_all (k : Kind) : k ∈ all := by cases k <;> decide

@[simp] theorem ofKeyword?_keyword (k : Kind) : ofKeyword? k.keyword = some k := by
  cases k <;> decide

theorem keyword_ne_nil (k : Kind) : k.keyword ≠ [] := by cases k <;> decide

theorem eq_opener_append_of_opening? {t : Text} {k : Kind} (h : opening? t = some k) :
    ∃ rest, t = k.opener ++ rest := by
  unfold opening? at h
  have hk := List.find?_some h
  obtain ⟨rest, hrest⟩ := List.isPrefixOf_iff_prefix.mp hk
  exact ⟨rest, hrest.symm⟩

/-- No opener begins another one, so that the kind of a marker is read off its opener. -/
@[simp] theorem opening?_opener_append (k : Kind) (t : Text) :
    opening? (k.opener ++ t) = some k := by
  cases k <;> rfl

end Kind

end SourceMarkers
