import XmlBinding.Proofs.Binding.Steps
import XmlBinding.Proofs.Schema.Bounds

/-! # Bases and particles of types

The particles of a complex type are those of the type that it adds to and then the one it states
itself.
-/
namespace XmlBinding.Schema

/-- The complex type of a name. -/
def Model.typeNamed? (model : Model) : TypeName → Option ComplexType
  | .builtin _ => none
  | .schema name => model.complexType name

def SimpleTypeRef.name? : SimpleTypeRef → Option TypeName
  | .named name => some name
  | .inline _ => none

/-- The type that a content adds to. -/
def ComplexContent.baseName? : ComplexContent → Option TypeName
  | .empty | .particle _ => none
  | .simpleExtension base | .extension base _ => some base
  | .simpleRestriction r => r.base.name?

/-- The type that a content adds to, if it is a complex one. -/
def ComplexContent.baseType? (model : Model) (content : ComplexContent) : Option ComplexType :=
  content.baseName?.bind model.typeNamed?

/-- The complex type that an element is declared with. -/
def ElementType.complex? (model : Model) : ElementType → Option ComplexType
  | .named name => model.typeNamed? name
  | .complex t => some t
  | .simple _ | .any => none

/-- The particles of a content, those of its base first. -/
inductive ContentParticles (model : Model) : ComplexContent → List Particle → Prop
  | alone {content : ComplexContent} (hbase : content.baseType? model = none) :
      ContentParticles model content content.own?.toList
  | derived {content : ComplexContent} {base : ComplexType} {ps : List Particle}
      (hbase : content.baseType? model = some base) (h : ContentParticles model base.content ps) :
      ContentParticles model content (ps ++ content.own?.toList)

variable {model : Model}

theorem mem_declared_of_typeNamed? {name : TypeName} {t : ComplexType}
    (h : model.typeNamed? name = some t) : .inr t ∈ model.declared := by
  cases name with
  | builtin name => cases h
  | schema name =>
    exact (model.sublist_of_complexType (mem_of_find h)).subset t.mem_declared

theorem mem_declared_of_baseType? {content : ComplexContent} {base : ComplexType}
    (h : content.baseType? model = some base) : .inr base ∈ model.declared := by
  obtain ⟨name, -, h⟩ := Option.bind_eq_some_iff.mp h
  exact mem_declared_of_typeNamed? h

theorem mem_declared_of_complex? {type : ElementType}
    (hd : type.declared.Sublist model.declared) {t : ComplexType}
    (ht : type.complex? model = some t) : .inr t ∈ model.declared := by
  cases type with
  | named name => exact mem_declared_of_typeNamed? ht
  | complex s =>
    obtain rfl := Option.some.inj ht
    rw [ElementType.declared] at hd
    exact hd.subset s.mem_declared
  | simple _ => cases ht
  | any => cases ht

/-- If the bounds of a schema are within the limit then so are those of all particles of a type. -/
theorem ContentParticles.limited (hm : DeclareLimited model.declared) {content : ComplexContent}
    {ps : List Particle} (h : ContentParticles model content ps)
    (hown : ∀ p ∈ content.own?, p.maximum.limited = p.maximum) :
    ∀ p ∈ ps, p.maximum.limited = p.maximum := by
  induction h with
  | alone hbase => exact fun p hp => hown p (Option.mem_toList.mp hp)
  | derived hbase h ih =>
    intro p hp
    rcases List.mem_append.mp hp with hp | hp
    · exact ih (hm _ (mem_declared_of_baseType? hbase)) p hp
    · exact hown p (Option.mem_toList.mp hp)

end XmlBinding.Schema

namespace XmlBinding.Binding
open Schema

section
variable {model : Model}

/-- The particles of a content, each with the name of the type that states it. -/
inductive DeclaredParticles (model : Model) :
    Option String → ComplexContent → List DeclaredParticle → Prop
  | alone {name : Option String} {content : ComplexContent}
      (hbase : content.baseType? model = none) :
      DeclaredParticles model name content (content.own?.toList.map (⟨·, name⟩))
  | derived {name : Option String} {content : ComplexContent} {base : ComplexType}
      {ps : List DeclaredParticle} (hbase : content.baseType? model = some base)
      (h : DeclaredParticles model base.name base.content ps) :
      DeclaredParticles model name content (ps ++ content.own?.toList.map (⟨·, name⟩))

theorem DeclaredParticles.contentParticles {name : Option String} {content : ComplexContent}
    {ps : List DeclaredParticle} (h : DeclaredParticles model name content ps) :
    ContentParticles model content (ps.map (·.particle)) := by
  induction h with
  | alone hbase => simpa [Function.comp_def] using ContentParticles.alone hbase
  | derived hbase _ ih => simpa [Function.comp_def] using ContentParticles.derived hbase ih

theorem DeclaredParticles.unique {name : Option String} {content : ComplexContent}
    {ps qs : List DeclaredParticle} (h : DeclaredParticles model name content ps)
    (h' : DeclaredParticles model name content qs) : ps = qs := by
  induction h generalizing qs with
  | alone hbase =>
    cases h' with
    | alone _ => rfl
    | derived hbase' _ => rw [hbase] at hbase'; cases hbase'
  | derived hbase _ ih =>
    cases h' with
    | alone hbase' => rw [hbase] at hbase'; cases hbase'
    | derived hbase' h' =>
      obtain rfl := Option.some.inj (hbase.symm.trans hbase')
      rw [ih h']

theorem isComplex_eq (model : Model) (name : TypeName) :
    isComplex model name = (model.typeNamed? name).isSome := by
  cases name <;> rfl

theorem baseType?_simpleRestriction (model : Model) (r : Restriction) :
    (ComplexContent.simpleRestriction r).baseType? model =
      (complexBase? model r).bind model.typeNamed? := by
  rw [ComplexContent.baseType?, ComplexContent.baseName?, complexBase?]
  cases r.base with
  | inline t => rfl
  | named base =>
    simp only [SimpleTypeRef.name?, isComplex_eq, Option.bind_some]
    cases h : model.typeNamed? base <;> simp [h]

theorem complexTypeOf?_complex? (className : String) (type : ElementType) :
    Ensures (fun _ => True) (complexTypeOf? model className type)
      fun r _ => type.complex? model = r.map (·.2) := by
  unfold complexTypeOf?
  split
  · next name =>
    split
    · next t ht => exact ensures_true.bind fun scope => ensures_pure fun _ _ => ht
    · next ht => exact ensures_pure fun _ _ => ht
  · exact ensures_pure fun _ _ => rfl
  · next hnamed hcomplex =>
    refine ensures_pure fun _ _ => ?_
    match type with
    | .named (.builtin _) => rfl
    | .named (.schema name) => exact absurd rfl (hnamed name)
    | .complex t => exact absurd rfl (hcomplex t)
    | .simple _ => rfl
    | .any => rfl

end

end XmlBinding.Binding
