/-!
# Layout of text in lines

A document is text with places where a line may end, grouped in nested boxes. A box that does not
fit on the line is broken: a consistent one at all its places, an inconsistent one only where what
follows does not fit. Widths are counted in bytes.
-/
namespace XmlBinding.Code

/-- A place where a line may end. Unbroken it is `blanks` spaces and `kept`; broken it is `before`
on the old line and `after` on the new one, which is indented by `offset` more than the box. -/
structure Break where
  blanks : Nat := 0
  offset : Int := 0
  before : String := ""
  after : String := ""
  kept : String := ""
  never : Bool := false
deriving DecidableEq, Repr

inductive Doc where
  | text (s : String)
  | line (b : Break)
  | box (consistent : Bool) (indent : Int) (body : List Doc)
  | overfull

/-- A width that no line has. -/
def unlimited : Nat := 65535

/-- How far a line reaches, and how much room it keeps however deep it is indented. -/
def margin : Int := 89
def leastRoom : Int := 60

mutual

/-- The width on one line. -/
def Doc.width : Doc → Nat
  | .text s => s.utf8ByteSize
  | .line b => b.blanks
  | .box _ _ body => widthOf body
  | .overfull => unlimited

def widthOf : List Doc → Nat
  | [] => 0
  | d :: ds => d.width + widthOf ds

end

/-- The width up to the next place where a line may end; `after` is what follows the box. -/
def reach (after : Nat) : List Doc → Nat
  | [] => after
  | .line _ :: _ => 0
  | d :: ds => d.width + reach after ds

/-- What is written, the room left on the line, the indentation, and blanks still to be written. -/
structure Page where
  written : String := ""
  room : Int := margin
  indent : Int := 0
  pending : Nat := 0

namespace Page

def flush (p : Page) : Page :=
  { p with written := p.written ++ "".pushn ' ' p.pending, pending := 0 }

def put (p : Page) (s : String) : Page :=
  let p := p.flush
  { p with written := p.written ++ s, room := p.room - s.utf8ByteSize }

def keep (p : Page) (b : Break) : Page :=
  { p with
    written := p.written ++ b.kept
    pending := p.pending + b.blanks
    room := p.room - b.blanks - b.kept.utf8ByteSize }

def newLine (p : Page) (b : Break) : Page :=
  let p := if b.before = "" then p else p.put b.before
  let indent := p.indent + b.offset
  let p := { p with
    written := p.written ++ "\n"
    pending := indent.toNat
    room := max (margin - indent) leastRoom }
  if b.after = "" then p else p.put b.after

end Page

/-- How the box around a place is set. -/
inductive Setting where
  | fits
  | broken (consistent : Bool)
deriving DecidableEq, Repr

/-- Whether the line goes on at a place when `size` is needed up to the next one. -/
def goesOn (setting : Setting) (b : Break) (size : Nat) (room : Int) : Bool :=
  b.never || match setting with
    | .fits => true
    | .broken consistent => !consistent && size ≤ room

mutual

def Doc.set (setting : Setting) (tail : Nat) : Doc → Page → Page
  | .text s, p => p.put s
  | .overfull, p => p
  | .line b, p =>
    if goesOn setting b (b.blanks + tail) p.room then p.keep b else p.newLine b
  | .box consistent indent body, p =>
    if widthOf body + tail ≤ p.room then setAll .fits tail body p
    else
      let q := setAll (.broken consistent) tail body { p with indent := p.indent + indent }
      { q with indent := p.indent }

def setAll (setting : Setting) (after : Nat) : List Doc → Page → Page
  | [], p => p
  | d :: ds, p => setAll setting after ds (d.set setting (reach after ds) p)

end

/-- The text of a document. -/
def layout (ds : List Doc) : String :=
  (setAll (.broken false) 0 ds {}).written

end XmlBinding.Code
