import SourceMarkers.Annotation
import SourceMarkers.Finding

/-! # Margins

A margin keeps the annotations that are shown beside a document while the
document is edited. It holds the annotations of the last document it was
refreshed with.
-/

namespace SourceMarkers

/-- The annotations that are shown at present. -/
structure Margin where
  annotations : List Annotation := []
deriving DecidableEq, Repr

namespace Margin

def empty : Margin := {}

def refresh (_ : Margin) (d : Document) : Margin := ⟨d.annotations d.markers⟩

def clear (_ : Margin) : Margin := empty

inductive Step where
  | renew
  | clear
  | refresh (d : Document)
deriving Repr

def step (m : Margin) : Step → Margin
  | .renew => empty
  | .clear => m.clear
  | .refresh d => m.refresh d

def history (m : Margin) : List Step → List Margin
  | [] => []
  | s :: rest => m.step s :: history (m.step s) rest

@[simp] theorem annotations_empty : empty.annotations = [] := rfl

@[simp] theorem annotations_clear (m : Margin) : m.clear.annotations = [] := rfl

@[simp] theorem annotations_refresh (m : Margin) (d : Document) :
    (m.refresh d).annotations = d.annotations d.markers := rfl

end Margin

end SourceMarkers
