/-!
# XML text as pieces

A document under construction is a list of pieces. Its text is a fold over them: in the indented
layout a tag starts a new line, two blanks deeper per open element, unless it is the first piece
or text stands directly before it.
-/
namespace XmlBinding.Xml

inductive Piece where
  | declaration
  | startTag (name : String) (attributes : List (String × String))
  | emptyTag (name : String) (attributes : List (String × String))
  | endTag (name : String)
  | text (value : String)
deriving DecidableEq, Repr

inductive Layout where
  | plain
  | indented
deriving DecidableEq, Repr

/-- The five characters with a meaning in markup become entity references. -/
def escapeChar : Char → List Char
  | '<' => "&lt;".toList
  | '>' => "&gt;".toList
  | '&' => "&amp;".toList
  | '\'' => "&apos;".toList
  | '"' => "&quot;".toList
  | c => [c]

def escape (s : List Char) : List Char :=
  s.flatMap escapeChar

@[simp] theorem escape_append (s t : List Char) : escape (s ++ t) = escape s ++ escape t := by
  simp [escape]

def attributeText (a : String × String) : List Char :=
  ' ' :: a.1.toList ++ '=' :: '"' :: escape a.2.toList ++ ['"']

def Piece.chars : Piece → List Char
  | .declaration => "<?xml version=\"1.0\" encoding=\"utf-8\"?>".toList
  | .startTag name attributes => '<' :: name.toList ++ attributes.flatMap attributeText ++ ['>']
  | .emptyTag name attributes =>
    '<' :: name.toList ++ attributes.flatMap attributeText ++ ['/', '>']
  | .endTag name => '<' :: '/' :: name.toList ++ ['>']
  | .text value => escape value.toList

/-- Where the next piece stands: how deep, and whether it would start a new line. -/
structure Place where
  depth : Nat
  breaks : Bool

def Place.start : Place := ⟨0, false⟩

def Place.break (p : Place) : List Char :=
  if p.breaks then '\n' :: List.replicate (2 * p.depth) ' ' else []

/-- The break before a piece and the place after it. -/
def Place.step (p : Place) : Piece → List Char × Place
  | .declaration => (p.break, ⟨p.depth, true⟩)
  | .startTag .. => (p.break, ⟨p.depth + 1, true⟩)
  | .emptyTag .. => (p.break, ⟨p.depth, true⟩)
  | .endTag _ => (Place.break ⟨p.depth - 1, p.breaks⟩, ⟨p.depth - 1, true⟩)
  | .text _ => ([], ⟨p.depth, false⟩)

def indentedChars : Place → List Piece → List Char
  | _, [] => []
  | p, x :: xs => (p.step x).1 ++ x.chars ++ indentedChars (p.step x).2 xs

def Layout.chars : Layout → List Piece → List Char
  | .plain, pieces => pieces.flatMap Piece.chars
  | .indented, pieces => indentedChars .start pieces

def Layout.render (layout : Layout) (pieces : List Piece) : String :=
  String.ofList (layout.chars pieces)

end XmlBinding.Xml
