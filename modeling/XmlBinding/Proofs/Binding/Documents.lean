import Mathlib.Data.List.Permutation
import XmlBinding.Generation
import XmlBinding.Proofs.Binding.Closure
import XmlBinding.Proofs.Xml.Namespaces

/-! # Schemas as documents

The text of an outline is read as the schema that its element declares. So what a generated module
is like can be computed for a document without a look at its characters.
-/
namespace XmlBinding
open Schema Binding Xml

/-- The document of an element. -/
def Xml.Outline.document (o : Outline) : String := Layout.plain.render (o.pieces none)

/-- An element of a schema. -/
def schemaElement (tag : String) (attributes : List (String × String)) (children : List Outline) :
    Outline :=
  ⟨tag, some schemaUri, attributes, none, children⟩

section
variable {scope : Xml.Scope} {tag : String} {attributes : List (String × String)}
  {children : List Outline}

theorem element_schemaElement :
    (schemaElement tag attributes children).element (some schemaUri) scope =
      ⟨⟨scope.lookup none, tag⟩, attributes.map fun a => ⟨⟨none, a.1⟩, a.2⟩, scope,
        outlineContents (some schemaUri) scope children⟩ := by
  simp [schemaElement, Outline.element, bindingsOf, Scope.inner, textContent]

theorem tag_schemaElement :
    ((schemaElement tag attributes children).element (some schemaUri) scope).tag = tag := by
  rw [element_schemaElement]
  rfl

theorem scope_schemaElement :
    ((schemaElement tag attributes children).element (some schemaUri) scope).scope = scope := by
  rw [element_schemaElement]

theorem attribute?_schemaElement (name : String) :
    ((schemaElement tag attributes children).element (some schemaUri) scope).attribute? name =
      (attributes.find? (·.1 == name)).map (·.2) := by
  have hname (a : String × String) :
      ((⟨none, a.1⟩ : ExpandedName) == ⟨none, name⟩) = (a.1 == name) := by
    rw [Bool.eq_iff_iff]
    simp
  rw [element_schemaElement]
  simp [Element.attribute?, List.find?_map, Function.comp_def, hname]

theorem elements_schemaElement :
    ((schemaElement tag attributes children).element (some schemaUri) scope).elements =
      children.map (·.element (some schemaUri) scope) := by
  rw [element_schemaElement]
  unfold Element.elements
  induction children with
  | nil => rfl
  | cons o os ih => simpa [outlineContents, Content.element?] using ih

end

theorem readSchema_document {o : Outline} (h : ∀ p ∈ o.outlines, p.Proper isPlain)
    (allow : Bool) : readSchema allow o.document = readModel (o.element none []) := by
  have hread : readDocument allow o.document = .ok (o.element none []) :=
    readDocument_pieces (fun p hp => (h p hp).faithful) allow
  unfold readSchema
  rw [hread]

/-- A property of the module bound to a document, as it is computed. -/
theorem exists_bindSchema_document {o : Outline} {model : Model} {P : Module → Bool}
    (h : ∀ p ∈ o.outlines, p.Proper isPlain) (hmodel : readModel (o.element none []) = .ok model)
    (hP : (Module.ofModel model).toOption.any P = true) (allow : Bool) :
    ∃ m, bindSchema o.document allow = .ok m ∧ P m = true := by
  obtain ⟨m, hm, hPm⟩ := exists_of_toOption model hP
  exact ⟨m, bindSchema_eq_ok.mpr ⟨model, (readSchema_document h allow).trans hmodel, hm⟩, hPm⟩

/-- The modules that generated code is nested in. -/
def Options.modules (options : Options) : List String :=
  (options.modulePath.map Binding.modulePath).getD []

/-- What is generated is the code of the module bound to the schema. -/
theorem exists_sourceFile_of_generate {text source : String} {options : Options}
    (h : generate text options = .ok source) :
    ∃ m support, bindSchema text options.allowDoctype = .ok m ∧
      source = (Code.sourceFile m options.modules support).text := by
  unfold generate at h
  obtain ⟨m, hbound, h⟩ := ok_of_bind h
  obtain ⟨support, -, h⟩ := ok_of_bind h
  exact ⟨m, support, hbound, (Except.ok.inj h).symm⟩

theorem exists_of_generate {text source : String} {options : Options}
    (h : generate text options = .ok source) :
    ∃ m modules support, bindSchema text options.allowDoctype = .ok m ∧
      source = (Code.sourceFile m modules support).text := by
  obtain ⟨m, support, hm, hsource⟩ := exists_sourceFile_of_generate h
  exact ⟨m, options.modules, support, hm, hsource⟩

/-- With the default library, only the schema can be at fault. -/
theorem exists_generate {text : String} {m : Module} (h : bindSchema text false = .ok m) :
    ∃ source, generate text {} = .ok source := by
  unfold generate
  rw [h]
  exact ⟨_, rfl⟩

end XmlBinding
