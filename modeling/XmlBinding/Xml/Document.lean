/-!
# Documents

A document is a tree of elements. Every element carries the prefixes bound where it stands, so that
qualified names in its attributes can be resolved without the elements around it.
-/
namespace XmlBinding.Xml

/-- A local name with the namespace it belongs to, if any. -/
structure ExpandedName where
  uri : Option String
  localName : String
deriving DecidableEq, Repr

/-- The namespace in braces, then the local name. -/
def ExpandedName.text (n : ExpandedName) : String :=
  match n.uri with
  | some uri => "\x7b" ++ uri ++ "\x7d" ++ n.localName
  | none => n.localName

/-- The namespace that the prefix `xml` always has. -/
def xmlUri : String := "http://www.w3.org/XML/1998/namespace"

structure Attribute where
  name : ExpandedName
  value : String
deriving DecidableEq, Repr

/-- Namespaces by prefix; without a prefix the default namespace. The first binding counts. -/
abbrev Scope := List (Option String × String)

def Scope.lookup (scope : Scope) (pfx : Option String) : Option String :=
  (scope.find? (·.1 == pfx)).map (·.2)

mutual

structure Element where
  name : ExpandedName
  attributes : List Attribute
  scope : Scope
  content : List Content

inductive Content where
  | element (e : Element)
  | text (value : String)
  | comment (value : String)
  | instruction (target value : String)

end

def Content.element? : Content → Option Element
  | .element e => some e
  | _ => none

def Content.text? : Content → Option String
  | .text s => some s
  | _ => none

namespace Element

/-- The local name of the tag. -/
def tag (e : Element) : String := e.name.localName

/-- The child elements in order. -/
def elements (e : Element) : List Element := e.content.filterMap Content.element?

/-- The value of the attribute of this name in no namespace. -/
def attribute? (e : Element) (name : String) : Option String :=
  (e.attributes.find? (·.name == ⟨none, name⟩)).map (·.value)

theorem sizeOf_lt_of_mem_content {e : Element} {c : Element} (h : .element c ∈ e.content) :
    sizeOf c < sizeOf e := by
  cases e
  have := List.sizeOf_lt_of_mem h
  simp at *
  omega

theorem sizeOf_lt_of_mem {e c : Element} (h : c ∈ e.elements) : sizeOf c < sizeOf e := by
  simp only [elements, List.mem_filterMap] at h
  obtain ⟨x, hx, hc⟩ := h
  cases x <;> simp only [Content.element?, Option.some.injEq, reduceCtorEq] at hc
  subst hc
  exact sizeOf_lt_of_mem_content hx

end Element

end XmlBinding.Xml
