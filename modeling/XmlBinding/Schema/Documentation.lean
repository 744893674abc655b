import XmlBinding.Text.Blank
import XmlBinding.Xml.Document
/-!
# Documentation of components

Documentation is plain text: markup in it is dropped, blanks inside a line shrink to one space, and
blank lines at either end go.
-/
namespace XmlBinding.Schema
open Text Xml

mutual

/-- The character data at any depth, in order. -/
def Content.flatText : Content → String
  | .text s => s
  | .element e => Element.flatText e
  | .comment _ => ""
  | .instruction .. => ""

def Element.flatText : Element → String
  | ⟨_, _, _, content⟩ => flatTexts content

def flatTexts : List Content → String
  | [] => ""
  | c :: cs => Content.flatText c ++ flatTexts cs

end

/-- The lines between the first and the last that is not blank, their words one space apart. -/
def normalizedLines (s : String) : List String :=
  let collapsed := (lines s).map fun line => String.intercalate " " (words line)
  ((collapsed.dropWhile (· == "")).reverse.dropWhile (· == "")).reverse

def normalize (s : String) : String :=
  String.intercalate "\n" (normalizedLines s)

/-- The texts of an annotation that are not blank. -/
def annotationTexts (e : Element) : List String :=
  ((e.elements.filter (·.tag == "documentation")).map fun c =>
    normalize (Element.flatText c)).filter (· != "")

/-- The documentation of a component, its texts a blank line apart. -/
def documentation (e : Element) : Option String :=
  let texts := (e.elements.filter (·.tag == "annotation")).flatMap annotationTexts
  if texts.isEmpty then none else some (String.intercalate "\n\n" texts)

end XmlBinding.Schema
