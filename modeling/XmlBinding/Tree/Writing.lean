import XmlBinding.Tree.Store
import XmlBinding.Xml.Writer
/-!
# Writing trees

An element is written as its start tag, its attributes, its text, its children in slot order and
its end tag.
-/
namespace XmlBinding.Tree
open Binding Xml

/-- Writes a value under its name or as text. -/
def writeValue (isText : Bool) (name value : String) (w : Writer) : Except TreeError Writer :=
  if isText then .ok (w.addText value) else w.addAttribute name value

/-- Recorded values in the order they came. -/
def writeRecorded : List (String × String) → Writer → Except TreeError Writer
  | [], w => .ok w
  | (name, value) :: r, w => do writeRecorded r (← writeValue (name = contentName) name value w)

/-- The values of rules that are set and have a text, attributes only or the text only. -/
def writeHeld (text : Bool) :
    List (ValueRule × Option Held) → Writer → Except TreeError Writer
  | [], w => .ok w
  | (rule, held) :: r, w => do
    match held.bind rule.kind.text? with
    | some value =>
      if rule.isText = text then writeHeld text r (← writeValue text rule.name value w)
      else writeHeld text r w
    | none => writeHeld text r w

def Node.writeValues (n : Node) (w : Writer) : Except TreeError Writer := do
  match n.blueprint.attributes with
  | .typed rules =>
    let held := rules.zip n.values
    writeHeld true held (← writeHeld false held w)
  | _ => writeRecorded n.recorded w

/-- Writes children one after the other. -/
def writeEach (write : Nat → Writer → Except TreeError Writer) :
    List Child → Writer → Except TreeError Writer
  | [], w => .ok w
  | x :: xs, w => do writeEach write xs (← write x.id w)

/-- Writes an element; `depth` bounds how deep elements are nested. -/
def writeNode (s : Store) : Nat → Nat → Writer → Except TreeError Writer
  | 0, _, w => .ok w
  | depth + 1, id, w =>
    match s[id]? with
    | none => .ok w
    | some n => do
      let w ← n.writeValues (w.openElement n.name n.blueprint.uri)
      let w ← writeEach (writeNode s depth) (s.children id) w
      w.closeElement

/-- The document of an element. In a forest nothing is nested deeper than there are elements. -/
def Store.toXml (s : Store) (layout : Layout) (id : Nat) : Except TreeError String := do
  let w ← writeNode s (s.length + 1) id (Writer.addDeclaration {})
  return w.toText layout

end XmlBinding.Tree
