import XmlBinding.Schema.Reading
/-!
# Schema documents

The children of the document element are read in order, each into the table of its kind. Names are
unique in a table, and simple and complex types share one set of names.
-/
namespace XmlBinding.Schema
open Xml

/-- A top-level component under its name. -/
inductive Component where
  | simpleType (name : String) (t : SimpleType)
  | complexType (name : String) (t : ComplexType)
  | element (d : ElementDeclaration)
  | attribute (d : AttributeDeclaration)
  | attributeGroup (g : AttributeGroup)
  | group (g : GroupDefinition)

/-- The component a child of the document element declares, if it declares one. -/
def readComponent (schema c : Element) : Result (Option Component) :=
  match c.tag with
  | "annotation" | "notation" => .ok none
  | "simpleType" => do
    let t ← readSimpleType c
    return some (.simpleType (← requiredText c "name") t)
  | "complexType" => do
    let t ← readComplexType c
    return some (.complexType (← requiredText c "name") t)
  | "element" => do return some (.element (← readElement c))
  | "attribute" => do return some (.attribute (← readAttribute c))
  | "attributeGroup" => do return some (.attributeGroup (← readAttributeGroup c))
  | "group" => do return some (.group (← readGroup c))
  | tag =>
    if ["import", "include", "redefine", "override", "defaultOpenContent"].contains tag then
      .error (.unsupported tag)
    else .error (unexpected schema c)

/-- Appends an entry under a name that the table does not have yet. -/
def insertNew {α : Type} (kind : Kind) (table : List (String × α)) (name : String) (a : α) :
    Result (List (String × α)) :=
  if table.any (·.1 == name) then .error (.duplicate kind name) else .ok (table ++ [(name, a)])

def Model.add (m : Model) : Component → Result Model
  | .simpleType name t => do
    return { m with simpleTypes := ← insertNew .type m.simpleTypes name t }
  | .complexType name t => do
    return { m with complexTypes := ← insertNew .type m.complexTypes name t }
  | .element d => do return { m with elements := ← insertNew .element m.elements d.name d }
  | .attribute d => do
    return { m with attributes := ← insertNew .attribute m.attributes d.name d }
  | .attributeGroup g => do
    return { m with attributeGroups := ← insertNew .attributeGroup m.attributeGroups g.name g }
  | .group g => do return { m with groups := ← insertNew .group m.groups g.name g }

/-- The first simple type that shares its name with a complex type. -/
def Model.sharedTypeName? (m : Model) : Option String :=
  (m.simpleTypes.find? fun t => m.complexTypes.any (·.1 == t.1)).map (·.1)

def readChild (schema : Element) (m : Model) (c : Element) : Result Model := do
  match ← readComponent schema c with
  | some component => m.add component
  | none => .ok m

def readModel (schema : Element) : Result Model := do
  if schema.tag ≠ "schema" then .error (.notASchema schema.tag)
  else
    let start : Model := { targetNamespace := schema.attribute? "targetNamespace" }
    let m ← schema.elements.foldlM (readChild schema) start
    match m.sharedTypeName? with
    | some name => .error (.duplicate .type name)
    | none => .ok m

/-- Reads a schema from the text of its document. -/
def readSchema (allowDoctype : Bool) (text : String) : Result Model :=
  match readDocument allowDoctype text with
  | .ok e => readModel e
  | .error e => .error (.document e)

/-- A schema is read from the document element of its document. -/
theorem readSchema_eq_ok {text : String} {allowDoctype : Bool} {m : Model} :
    readSchema allowDoctype text = .ok m ↔
      ∃ root, readDocument allowDoctype text = .ok root ∧ readModel root = .ok m := by
  unfold readSchema
  cases readDocument allowDoctype text <;> simp

end XmlBinding.Schema
