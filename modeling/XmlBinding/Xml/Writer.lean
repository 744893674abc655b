import XmlBinding.Xml.Markup
import XmlBinding.Tree.Error
/-!
# Writing XML step by step

A start tag stays pending until content or an end tag follows, so that attributes can be added to
it and an element without content closes itself. A default namespace is declared wherever it
differs from the one of the element around.
-/
namespace XmlBinding.Xml
open XmlBinding.Tree

structure OpenElement where
  name : String
  uri : Option String
deriving DecidableEq, Repr

/-- `written` holds the finished pieces, `opened` the elements still open, innermost first. -/
structure Writer where
  written : List Piece := []
  pending : Option (String × List (String × String)) := none
  opened : List OpenElement := []
deriving DecidableEq, Repr

namespace Writer

/-- The pending start tag is finished by whatever follows it. -/
def flush (w : Writer) : Writer :=
  match w.pending with
  | some (name, attributes) =>
    { w with written := w.written ++ [.startTag name attributes], pending := none }
  | none => w

@[simp] theorem flush_pending (w : Writer) : w.flush.pending = none := by
  unfold flush
  split <;> simp_all

@[simp] theorem flush_opened (w : Writer) : w.flush.opened = w.opened := by
  unfold flush
  split <;> simp_all

def addDeclaration (w : Writer) : Writer :=
  { w with written := w.written ++ [.declaration] }

def inScope (w : Writer) : Option String :=
  w.opened.head?.bind (·.uri)

def openElement (w : Writer) (name : String) (uri : Option String) : Writer :=
  let attributes := if uri = w.inScope then [] else [("xmlns", uri.getD "")]
  { w.flush with pending := some (name, attributes), opened := ⟨name, uri⟩ :: w.opened }

def addAttribute (w : Writer) (name value : String) : Except TreeError Writer :=
  match w.pending with
  | some (tag, attributes) => .ok { w with pending := some (tag, attributes ++ [(name, value)]) }
  | none => .error (.attributeOutsideStartTag name)

def addText (w : Writer) (value : String) : Writer :=
  { w.flush with written := w.flush.written ++ [.text value] }

def closeElement (w : Writer) : Except TreeError Writer :=
  match w.opened with
  | [] => .error .unbalancedEndElement
  | e :: rest =>
    let piece := match w.pending with
      | some (name, attributes) => .emptyTag name attributes
      | none => .endTag e.name
    .ok { written := w.written ++ [piece], pending := none, opened := rest }

def toText (w : Writer) (layout : Layout) : String :=
  layout.render w.flush.written

end Writer

end XmlBinding.Xml
