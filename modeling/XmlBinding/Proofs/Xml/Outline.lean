import XmlBinding.Xml.Writer

/-! # What is written of an element

An outline is an element as a writer is told about it. Writing one to a writer adds pieces that
depend on nothing but the outline and the namespace around it, and leaves the writer as it was
otherwise: what is open stays open.
-/
namespace XmlBinding.Xml
open XmlBinding.Tree

structure Outline where
  name : String
  uri : Option String
  attributes : List (String × String)
  text : Option String
  children : List Outline

mutual

/-- The outline itself and all outlines in it. -/
def Outline.outlines : Outline → List Outline
  | ⟨name, uri, attributes, text, children⟩ =>
    ⟨name, uri, attributes, text, children⟩ :: outlinesIn children

def outlinesIn : List Outline → List Outline
  | [] => []
  | o :: os => o.outlines ++ outlinesIn os

end

theorem Outline.outlines_eq (o : Outline) : o.outlines = o :: outlinesIn o.children := by
  cases o
  rfl

def writeAttributes : List (String × String) → Writer → Except TreeError Writer
  | [], w => .ok w
  | a :: as, w => do writeAttributes as (← w.addAttribute a.1 a.2)

def writeText : Option String → Writer → Writer
  | none, w => w
  | some text, w => w.addText text

mutual

/-- Start, attributes, text, children and end. -/
def Outline.write : Outline → Writer → Except TreeError Writer
  | ⟨name, uri, attributes, text, children⟩, w => do
    let w ← writeAttributes attributes (w.openElement name uri)
    let w ← writeOutlines children (writeText text w)
    w.closeElement

def writeOutlines : List Outline → Writer → Except TreeError Writer
  | [], w => .ok w
  | o :: os, w => do writeOutlines os (← o.write w)

end

/-- The declaration of a default namespace that differs from the one around. -/
def namespaceDeclaration (outer uri : Option String) : List (String × String) :=
  if uri = outer then [] else [("xmlns", uri.getD "")]

mutual

/-- The pieces of an element in a scope with the default namespace `outer`. -/
def Outline.pieces (outer : Option String) : Outline → List Piece
  | ⟨name, uri, attributes, text, children⟩ =>
    let attributes := namespaceDeclaration outer uri ++ attributes
    if text.isNone && children.isEmpty then [.emptyTag name attributes]
    else .startTag name attributes ::
      ((text.map Piece.text).toList ++ outlinePieces uri children ++ [.endTag name])

def outlinePieces (outer : Option String) : List Outline → List Piece
  | [] => []
  | o :: os => o.pieces outer ++ outlinePieces outer os

end

theorem writeAttributes_eq {w : Writer} {name : String} {declared : List (String × String)}
    (h : w.pending = some (name, declared)) (attributes : List (String × String)) :
    writeAttributes attributes w =
      .ok { w with pending := some (name, declared ++ attributes) } := by
  induction attributes generalizing w declared with
  | nil =>
    rw [writeAttributes, List.append_nil, ← h]
  | cons a as ih =>
    rw [writeAttributes, Writer.addAttribute, h, List.append_cons]
    exact ih rfl

/-- The writer after some pieces, which finish a pending start tag. -/
def Writer.extend (w : Writer) (pieces : List Piece) : Writer :=
  { w.flush with written := w.flush.written ++ pieces }

namespace Writer

variable (w : Writer) (ps qs : List Piece)

@[simp] theorem extend_pending : (w.extend ps).pending = none := w.flush_pending

@[simp] theorem extend_opened : (w.extend ps).opened = w.opened := w.flush_opened

@[simp] theorem extend_inScope : (w.extend ps).inScope = w.inScope := by simp [inScope]

theorem flush_of_pending {w : Writer} (h : w.pending = none) : w.flush = w := by
  rw [flush, h]

@[simp] theorem extend_extend : (w.extend ps).extend qs = w.extend (ps ++ qs) := by
  rw [extend, flush_of_pending (w.extend_pending ps), extend, extend, List.append_assoc]

/-- A writer inside of a new element whose start tag is still pending. -/
def startElement (name : String) (uri : Option String) (attributes : List (String × String)) :
    Writer :=
  { w.flush with pending := some (name, attributes), opened := ⟨name, uri⟩ :: w.opened }

variable {name : String} {uri : Option String} {attributes : List (String × String)}

@[simp] theorem inScope_startElement : (w.startElement name uri attributes).inScope = uri := rfl

theorem closeElement_startElement :
    (w.startElement name uri attributes).closeElement =
      .ok (w.extend [.emptyTag name attributes]) := by
  have hflush : w.flush = ⟨w.flush.written, none, w.opened⟩ := by
    rw [← w.flush_pending, ← w.flush_opened]
  rw [closeElement, startElement, extend, hflush]

theorem closeElement_extend :
    ((w.startElement name uri attributes).extend ps).closeElement =
      .ok (w.extend (.startTag name attributes :: (ps ++ [.endTag name]))) := by
  have hopen : (w.startElement name uri attributes).extend ps =
      ⟨w.flush.written ++ .startTag name attributes :: ps, none, ⟨name, uri⟩ :: w.opened⟩ := by
    simp [extend, startElement, flush]
  have hflush : w.flush = ⟨w.flush.written, none, w.opened⟩ := by
    rw [← w.flush_pending, ← w.flush_opened]
  rw [hopen, closeElement, extend, hflush]
  simp

theorem addText_eq (text : String) : w.addText text = w.extend [.text text] := rfl

end Writer

mutual

theorem Outline.write_eq : ∀ (o : Outline) (w : Writer),
    o.write w = .ok (w.extend (o.pieces w.inScope))
  | ⟨name, uri, attributes, text, children⟩, w => by
    have hstart : writeAttributes attributes (w.openElement name uri) =
        .ok (w.startElement name uri (namespaceDeclaration w.inScope uri ++ attributes)) :=
      writeAttributes_eq rfl attributes
    rw [Outline.write, hstart]
    cases text with
    | none =>
      cases children with
      | nil => exact w.closeElement_startElement
      | cons o os =>
        simp only [bind, Except.bind, writeText,
          writeOutlines_eq (o :: os) _ (List.cons_ne_nil _ _)]
        exact w.closeElement_extend _
    | some text =>
      cases children with
      | nil => exact w.closeElement_extend [.text text]
      | cons o os =>
        simp only [bind, Except.bind, writeText, Writer.addText_eq,
          writeOutlines_eq (o :: os) _ (List.cons_ne_nil _ _), Writer.extend_extend]
        exact w.closeElement_extend _

/-- Without any children the start tag stays pending. -/
theorem writeOutlines_eq : ∀ (os : List Outline) (w : Writer), os ≠ [] →
    writeOutlines os w = .ok (w.extend (outlinePieces w.inScope os))
  | [], _, h => absurd rfl h
  | o :: os, w, _ => by
    rw [writeOutlines, o.write_eq w]
    cases os with
    | nil => simp [outlinePieces, writeOutlines, bind, Except.bind]
    | cons o' os =>
      change writeOutlines (o' :: os) (w.extend (o.pieces w.inScope)) = _
      rw [writeOutlines_eq (o' :: os) _ (List.cons_ne_nil _ _), Writer.extend_extend,
        Writer.extend_inScope]
      rfl

end

end XmlBinding.Xml
