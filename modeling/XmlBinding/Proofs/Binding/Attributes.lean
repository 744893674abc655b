import XmlBinding.Proofs.Binding.Drafts
import XmlBinding.Proofs.Schema.Keys

/-! # Attributes and text of a type

A complex type has the attributes of the type it derives from and then those it states itself, where
references stand for top-level attributes and groups for what they hold. Its text is of the type
that it states, or else of the type of the text it inherits.
-/
namespace XmlBinding.Schema
open Binding

/-! ## Attributes -/

/-- Where an attribute of a type is declared: in the type or in a group, or at the top level. -/
inductive AttributeSource where
  | stated (d : AttributeDeclaration)
  | topLevel (d : AttributeDeclaration)

namespace AttributeSource

def declaration : AttributeSource → AttributeDeclaration
  | .stated d => d
  | .topLevel d => d

def name (s : AttributeSource) : String := s.declaration.name

/-- The type without a name that an attribute is stated with. -/
def anonymous? : AttributeSource → Option (String × SimpleType)
  | .stated d => match d.type with
    | some (.inline t) => some (d.name, t)
    | _ => none
  | .topLevel _ => none

end AttributeSource

/-- The type of plain text. -/
def plainText : SimpleTypeRef := .named (.builtin "string")

/-- An attribute without a type has plain text. -/
def AttributeDeclaration.valueType (d : AttributeDeclaration) : SimpleTypeRef :=
  d.type.getD plainText

/-- What uses of attributes stand for, in order. -/
inductive Expands (model : Model) : List AttributeUse → List AttributeSource → Prop
  | nil : Expands model [] []
  | declaration {d : AttributeDeclaration} {required : Bool} {uses : List AttributeUse}
      {sources : List AttributeSource} (h : Expands model uses sources) :
      Expands model (.declaration d required :: uses) (.stated d :: sources)
  | reference {name : String} {required : Bool} {d : AttributeDeclaration}
      {uses : List AttributeUse} {sources : List AttributeSource}
      (hd : model.attribute? name = some d) (h : Expands model uses sources) :
      Expands model (.reference name required :: uses) (.topLevel d :: sources)
  | group {name : String} {g : AttributeGroup} {uses : List AttributeUse}
      {inner sources : List AttributeSource} (hg : model.attributeGroup name = some g)
      (hinner : Expands model g.uses inner) (h : Expands model uses sources) :
      Expands model (.group name :: uses) (inner ++ sources)

section
variable {model : Model}

theorem Expands.unique {uses : List AttributeUse} {sources sources' : List AttributeSource}
    (h : Expands model uses sources) (h' : Expands model uses sources') :
    sources = sources' := by
  induction h generalizing sources' with
  | nil =>
    cases h'
    rfl
  | declaration _ ih =>
    cases h' with
    | declaration h' => rw [ih h']
  | reference hd _ ih =>
    cases h' with
    | reference hd' h' =>
      obtain rfl := Option.some.inj (hd.symm.trans hd')
      rw [ih h']
  | group hg _ _ ihinner ih =>
    cases h' with
    | group hg' hinner' h' =>
      obtain rfl := Option.some.inj (hg.symm.trans hg')
      rw [ihinner hinner', ih h']

/-- What is found under the name of a reference has that name. -/
theorem Expands.found (hnames : ∀ p ∈ model.attributes, p.2.name = p.1)
    {uses : List AttributeUse} {sources : List AttributeSource} (h : Expands model uses sources) :
    ∀ d, .topLevel d ∈ sources → model.attribute? d.name = some d := by
  induction h with
  | nil => simp
  | declaration _ ih => simpa using ih
  | @reference name _ e _ _ he _ ih =>
    have hname : e.name = name := hnames _ (mem_of_find he)
    intro d hd
    rcases List.mem_cons.mp hd with heq | hd
    · obtain rfl := AttributeSource.topLevel.inj heq
      rw [hname, he]
    · exact ih d hd
  | group _ _ _ ihinner ih =>
    intro d hd
    rcases List.mem_append.mp hd with hd | hd
    · exact ihinner d hd
    · exact ih d hd

end

/-! ## Text -/

/-- A restriction as a type without a name. -/
def Restriction.asType (r : Restriction) : SimpleType := ⟨none, none, .restriction r⟩

/-- The type of an element that has text only. One without a type may have any text. -/
def ElementType.valueType : ElementType → SimpleTypeRef
  | .named name => .named name
  | .simple t => .inline t
  | .complex _ | .any => plainText

namespace ComplexContent
variable (model : Model)

/-- The restriction by which a content states the type of its text. One that takes nothing from the
literals of a complex base leaves its text as it is. -/
def restriction? : ComplexContent → Option Restriction
  | .simpleRestriction r =>
    if (complexBase? model r).isNone || !r.enumerations.isEmpty then some r else none
  | _ => none

/-- The type of the text that a content states itself. -/
def statedText? : ComplexContent → Option SimpleTypeRef
  | .simpleExtension base => if isComplex model base then none else some (.named base)
  | content => (content.restriction? model).map fun r => .inline r.asType

end ComplexContent

/-- The type of the text of a type that inherits some. Mixed text is plain if nothing else is said
about it. -/
def ComplexType.text? (model : Model) (t : ComplexType) (inherited : Option SimpleTypeRef) :
    Option SimpleTypeRef :=
  let text := (t.content.statedText? model).or inherited
  if t.mixed && text.isNone then some plainText else text

/-- What a type has of attributes, each with the type that states it, and of text. -/
inductive HasValues (model : Model) :
    ComplexType → List (ComplexType × AttributeSource) → Option SimpleTypeRef → Prop
  | alone {t : ComplexType} {sources : List AttributeSource}
      (hbase : t.content.baseType? model = none) (h : Expands model t.attributes sources) :
      HasValues model t (sources.map (t, ·)) (t.text? model none)
  | derived {t base : ComplexType} {inherited : List (ComplexType × AttributeSource)}
      {text : Option SimpleTypeRef} {sources : List AttributeSource}
      (hbase : t.content.baseType? model = some base)
      (hinherited : HasValues model base inherited text) (h : Expands model t.attributes sources) :
      HasValues model t (inherited ++ sources.map (t, ·)) (t.text? model text)

/-- Of a type the schema says in one way what its values are. -/
theorem HasValues.unique {model : Model} {t : ComplexType}
    {attributes attributes' : List (ComplexType × AttributeSource)}
    {text text' : Option SimpleTypeRef} (h : HasValues model t attributes text)
    (h' : HasValues model t attributes' text') : attributes = attributes' ∧ text = text' := by
  induction h generalizing attributes' text' with
  | alone hbase h =>
    cases h' with
    | alone _ h' => exact ⟨by rw [h.unique h'], rfl⟩
    | derived hbase' _ _ => rw [hbase] at hbase'; cases hbase'
  | derived hbase _ h ih =>
    cases h' with
    | alone hbase' _ => rw [hbase] at hbase'; cases hbase'
    | derived hbase' hinherited' h' =>
      obtain rfl := Option.some.inj (hbase.symm.trans hbase')
      obtain ⟨rfl, rfl⟩ := ih hinherited'
      exact ⟨by rw [h.unique h'], rfl⟩

/-- What a type takes over: nothing, or the values of the type it derives from. -/
def Inherits (model : Model) (content : ComplexContent)
    (attributes : List (ComplexType × AttributeSource)) (text : Option SimpleTypeRef) : Prop :=
  match content.baseType? model with
  | none => attributes = [] ∧ text = none
  | some base => HasValues model base attributes text

theorem inherits_of_none {model : Model} {content : ComplexContent}
    (h : content.baseType? model = none) : Inherits model content [] none := by
  rw [Inherits, h]
  exact ⟨rfl, rfl⟩

theorem inherits_of_some {model : Model} {content : ComplexContent} {base : ComplexType}
    (h : content.baseType? model = some base)
    {attributes : List (ComplexType × AttributeSource)} {text : Option SimpleTypeRef}
    (hvalues : HasValues model base attributes text) : Inherits model content attributes text := by
  rw [Inherits, h]
  exact hvalues

theorem Inherits.hasValues {model : Model} {t : ComplexType}
    {attributes : List (ComplexType × AttributeSource)} {text : Option SimpleTypeRef}
    {sources : List AttributeSource} (h : Inherits model t.content attributes text)
    (hsources : Expands model t.attributes sources) :
    HasValues model t (attributes ++ sources.map (t, ·)) (t.text? model text) := by
  unfold Inherits at h
  split at h
  · next hbase =>
    obtain ⟨rfl, rfl⟩ := h
    exact .alone hbase hsources
  · next base hbase => exact .derived hbase h hsources

/-! ## What is to be resolved -/

/-- What a schema asks to be resolved: its simple types, and those of attributes, of the text of
complex types and of elements. -/
inductive Model.Asks (m : Model) : SimpleTypeRef → Prop
  | simpleType {e : String × SimpleType} (he : e ∈ m.simpleTypes) : Asks m (.named (.schema e.1))
  | topLevel {e : String × AttributeDeclaration} (he : e ∈ m.attributes) : Asks m e.2.valueType
  | use {t : ComplexType} {d : AttributeDeclaration} {required : Bool} (ht : .inr t ∈ m.declared)
      (hd : .declaration d required ∈ t.attributes) : Asks m d.valueType
  | groupUse {e : String × AttributeGroup} {d : AttributeDeclaration} {required : Bool}
      (he : e ∈ m.attributeGroups) (hd : .declaration d required ∈ e.2.uses) : Asks m d.valueType
  | text {t : ComplexType} {ref : SimpleTypeRef} (ht : .inr t ∈ m.declared)
      (href : t.content.statedText? m = some ref) : Asks m ref
  | element {d : ElementDeclaration} (hd : .inl d ∈ m.declared) : Asks m d.type.valueType

/-- It asks for the types of the attributes that are declared in uses. -/
def Model.AsksFor (m : Model) (uses : List AttributeUse) : Prop :=
  ∀ d required, .declaration d required ∈ uses → m.Asks d.valueType

end XmlBinding.Schema
