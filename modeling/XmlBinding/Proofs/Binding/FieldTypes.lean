import XmlBinding.Proofs.Binding.Attributes
import XmlBinding.Proofs.Binding.Meanings
import XmlBinding.Proofs.Binding.MemberNames

/-! # Classes with the values of a type

The fields of a class are the attributes of its type, the first of every name, and each has the type
of its own declaration. There is one exception: the text of a type and an attribute of the same name
are kept under one key, so such an attribute is taken for the text.
-/
namespace XmlBinding.Binding
open Schema

/-! ## The first of every name -/

section
variable {α : Type} (name : α → String)

/-- Keeps the first of every name. -/
def firstOf : List α → List α
  | [] => []
  | a :: r => a :: (firstOf r).filter fun b => name b ≠ name a

variable {name}

theorem mem_names_firstOf {n : String} {as : List α} :
    n ∈ (firstOf name as).map name ↔ n ∈ as.map name := by
  induction as with
  | nil => rfl
  | cons a as ih =>
    rw [firstOf, List.map_cons, List.map_cons, List.mem_cons, List.mem_cons]
    by_cases hn : n = name a
    · simp [hn]
    · have hfilter : n ∈ ((firstOf name as).filter fun b => name b ≠ name a).map name ↔
          n ∈ (firstOf name as).map name := by
        simp only [List.mem_map, List.mem_filter]
        constructor
        · rintro ⟨b, ⟨hb, -⟩, rfl⟩
          exact ⟨b, hb, rfl⟩
        · rintro ⟨b, hb, rfl⟩
          exact ⟨b, ⟨hb, by simpa using hn⟩, rfl⟩
      rw [hfilter, ih]

theorem nodup_names_firstOf (as : List α) : ((firstOf name as).map name).Nodup := by
  induction as with
  | nil => exact List.nodup_nil
  | cons a as ih =>
    rw [firstOf, List.map_cons]
    refine List.nodup_cons.mpr ⟨by simp, ih.sublist ?_⟩
    exact List.filter_sublist.map name

/-- What comes last is kept if its name is new. -/
theorem firstOf_concat (as : List α) (a : α) :
    firstOf name (as ++ [a]) =
      if name a ∈ as.map name then firstOf name as else firstOf name as ++ [a] := by
  induction as with
  | nil => rfl
  | cons b as ih =>
    rw [List.cons_append, firstOf, firstOf, ih, List.map_cons]
    by_cases hname : name a = name b
    · rw [if_pos (List.mem_cons.mpr (.inl hname))]
      split <;> simp [List.filter_append, hname]
    · by_cases has : name a ∈ as.map name
      · rw [if_pos has, if_pos (List.mem_cons_of_mem _ has)]
      · rw [if_neg has, if_neg (List.mem_cons.not.mpr (not_or.mpr ⟨hname, has⟩))]
        simp [List.filter_append, hname]

end

/-! ## Fields -/

section
variable (model : Model) (es : List Enumeration)

/-- The text that a type states and an anonymous type of an attribute of it have the same key. -/
def Clashes (a : ComplexType × AttributeSource) (r : Restriction) : Prop :=
  a.1.content.restriction? model = some r ∧ a.2.name = contentName ∧ a.2.anonymous?.isSome = true

/-- What an attribute is kept as: what the type of its declaration comes down to, or that of the
text with the same key. -/
structure TypeFor (a : ComplexType × AttributeSource) (t : FieldType) : Prop where
  own : (∀ r, ¬ Clashes model a r) → Represents model es a.2.declaration.valueType t
  clash : ∀ r, Clashes model a r → Represents model es (.inline r.asType) t

structure FieldFor (a : ComplexType × AttributeSource) (f : Field) : Prop where
  xmlName : f.xmlName = a.2.name
  documentation : f.documentation = a.2.declaration.documentation
  type : TypeFor model es a f.type

/-- The fields for the attributes of a type. -/
structure FieldsFor (attributes : List (ComplexType × AttributeSource)) (fields : List Field) :
    Prop where
  each : List.Forall₂ (FieldFor model es) (firstOf (·.2.name) attributes) fields
  members : MembersDiffer fields

/-- A class has the attributes and the text of a complex type. -/
def TypeValues (t : ComplexType) (k : ElementClass) : Prop :=
  ∃ attributes text, HasValues model t attributes text ∧
    FieldsFor model es attributes k.fields ∧ Option.Rel (Represents model es) text k.content

/-- A class has the text of an element without a complex type, and no attributes. -/
structure TextValues (ref : SimpleTypeRef) (k : ElementClass) : Prop where
  fields : k.fields = []
  content : Option.Rel (Represents model es) (some ref) k.content

/-- A class has the values of an element. -/
inductive ElementValues (type : ElementType) (k : ElementClass) : Prop
  | complex {t : ComplexType} (ht : type.complex? model = some t) (h : TypeValues model es t k)
  | text (ht : type.complex? model = none) (h : TextValues model es type.valueType k)

/-- A class has the values of what it was made for. -/
inductive ElementClass.ValuedFor (k : ElementClass) : Prop
  | complexType {e : String × ComplexType} (he : e ∈ model.complexTypes)
      (horigin : k.origin = .complexType) (hname : k.xmlName = e.1)
      (h : TypeValues model es e.2 k)
  | element {e : String × ElementDeclaration} (he : e ∈ model.elements)
      (horigin : k.origin = .topLevel) (hname : k.xmlName = e.2.name)
      (h : ElementValues model es e.2.type k)
  | localElement {d : ElementDeclaration} (hd : d ∈ model.allElements)
      (horigin : k.origin = .localElement) (hname : k.xmlName = d.name)
      (h : ElementValues model es d.type k)

end

section
variable {model : Model} {es fs : List Enumeration}
  {attributes : List (ComplexType × AttributeSource)} {fields : List Field}

theorem TypeFor.mono {a : ComplexType × AttributeSource} {t : FieldType} (h : TypeFor model es a t)
    (hes : Extends es fs) : TypeFor model fs a t where
  own hclash := (h.own hclash).mono hes
  clash r hclash := (h.clash r hclash).mono hes

theorem FieldsFor.mono (h : FieldsFor model es attributes fields) (hes : Extends es fs) :
    FieldsFor model fs attributes fields where
  each := h.each.imp fun _ _ hf => ⟨hf.xmlName, hf.documentation, hf.type.mono hes⟩
  members := h.members

theorem represents_rel_mono {text : Option SimpleTypeRef} {content : Option FieldType}
    (h : Option.Rel (Represents model es) text content) (hes : Extends es fs) :
    Option.Rel (Represents model fs) text content := by
  cases h with
  | some h => exact .some (h.mono hes)
  | none => exact .none

variable {k : ElementClass}

theorem TypeValues.mono {t : ComplexType} (h : TypeValues model es t k) (hes : Extends es fs) :
    TypeValues model fs t k := by
  obtain ⟨attributes, text, hvalues, hfields, htext⟩ := h
  exact ⟨attributes, text, hvalues, hfields.mono hes, represents_rel_mono htext hes⟩

theorem ElementValues.mono {type : ElementType} (h : ElementValues model es type k)
    (hes : Extends es fs) : ElementValues model fs type k := by
  cases h with
  | complex ht h => exact .complex ht (h.mono hes)
  | text ht h => exact .text ht ⟨h.fields, represents_rel_mono h.content hes⟩

theorem ElementClass.ValuedFor.mono (h : k.ValuedFor model es) (hes : Extends es fs) :
    k.ValuedFor model fs := by
  cases h with
  | complexType he horigin hname h => exact .complexType he horigin hname (h.mono hes)
  | element he horigin hname h => exact .element he horigin hname (h.mono hes)
  | localElement hd horigin hname h => exact .localElement hd horigin hname (h.mono hes)

theorem fieldsFor_nil : FieldsFor model es [] [] := ⟨.nil, membersDiffer_nil⟩

theorem TypeValues.fieldsFor {t : ComplexType} (h : TypeValues model es t k) :
    ∃ attributes, FieldsFor model es attributes k.fields := by
  obtain ⟨attributes, _, -, hfields, -⟩ := h
  exact ⟨attributes, hfields⟩

theorem ElementValues.fieldsFor {type : ElementType} (h : ElementValues model es type k) :
    ∃ attributes, FieldsFor model es attributes k.fields := by
  cases h with
  | complex _ h => exact h.fieldsFor
  | text _ h => exact ⟨[], h.fields ▸ fieldsFor_nil⟩

/-- The fields of any class are for attributes, of which there may be none. -/
theorem ElementClass.ValuedFor.fieldsFor (h : k.ValuedFor model es) :
    ∃ attributes, FieldsFor model es attributes k.fields := by
  cases h with
  | complexType _ _ _ h => exact h.fieldsFor
  | element _ _ _ h => exact h.fieldsFor
  | localElement _ _ _ h => exact h.fieldsFor

theorem FieldsFor.names (h : FieldsFor model es attributes fields) :
    fields.map (·.xmlName) = (firstOf (·.2.name) attributes).map (·.2.name) := by
  have hsame : List.Forall₂ (· = ·) (fields.map (·.xmlName))
      ((firstOf (·.2.name) attributes).map (·.2.name)) := by
    rw [List.forall₂_map_left_iff, List.forall₂_map_right_iff]
    exact h.each.flip.imp fun f a hf => hf.xmlName
  rwa [List.forall₂_eq_eq_eq] at hsame

theorem FieldsFor.nodup (h : FieldsFor model es attributes fields) :
    (fields.map (·.xmlName)).Nodup :=
  h.names ▸ nodup_names_firstOf attributes

/-- There is a field for a name if there is an attribute of the name. -/
theorem FieldsFor.any_iff (h : FieldsFor model es attributes fields) (name : String) :
    fields.any (·.xmlName = name) = true ↔ name ∈ attributes.map (·.2.name) := by
  have hnames : name ∈ fields.map (·.xmlName) ↔ name ∈ attributes.map (·.2.name) := by
    rw [h.names, mem_names_firstOf]
  rw [← hnames]
  simp

/-- The next attribute makes a field if its name is new. -/
theorem FieldsFor.addField (h : FieldsFor model es attributes fields)
    {a : ComplexType × AttributeSource} {t : FieldType}
    (ht : a.2.name ∉ attributes.map (·.2.name) → TypeFor model es a t) :
    FieldsFor model es (attributes ++ [a])
      (addField fields a.2.name t a.2.declaration.documentation) := by
  refine ⟨?_, h.members.addField _ _ _⟩
  rw [firstOf_concat, Binding.addField]
  by_cases hold : a.2.name ∈ attributes.map (·.2.name)
  · rw [if_pos hold, if_pos ((h.any_iff _).mpr hold)]
    exact h.each
  · rw [if_neg hold, if_neg ((h.any_iff _).not.mpr hold)]
    exact List.rel_append h.each (.cons ⟨rfl, rfl, ht hold⟩ .nil)

end

end XmlBinding.Binding
