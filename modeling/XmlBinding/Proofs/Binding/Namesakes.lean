import XmlBinding.Proofs.Binding.Documents
import XmlBinding.Proofs.Binding.Sharing

/-! # Elements that share a class, as the schema tells their types

The place of an element has its type as it is written, and that may be how a built-in type is
written and the name of a type of the schema too. Only then do elements of two types share a class.
It takes a type with a colon in its name.
-/
namespace XmlBinding.Binding
open Schema

/-! ## What is reached is declared -/

theorem declared_of_own? {content : ComplexContent} {p : Particle} (h : content.own? = some p) :
    content.declared = p.term.declared := by
  cases content with
  | particle q =>
    obtain rfl := Option.some.inj h
    rw [ComplexContent.declared_particle]
  | extension base q =>
    change q = some p at h
    rw [h, ComplexContent.declared_extension]
  | empty | simpleExtension _ | simpleRestriction _ => cases h

theorem declared_subset_of_complex? {model : Model} {type : ElementType} {t : ComplexType}
    (htype : type.declared ⊆ model.declared) (h : type.complex? model = some t) :
    t.declared ⊆ model.declared := by
  cases type with
  | complex s =>
    obtain rfl := Option.some.inj h
    rwa [ElementType.declared] at htype
  | named name =>
    cases name with
    | builtin _ => cases h
    | schema name => exact (model.sublist_of_complexType (mem_of_find h)).subset
  | simple _ | any => cases h

theorem DeclaredParticles.declared {model : Model} {name : Option String}
    {content : ComplexContent} {ps : List DeclaredParticle}
    (h : DeclaredParticles model name content ps) (hcontent : content.declared ⊆ model.declared) :
    ∀ p ∈ ps, p.particle.term.declared ⊆ model.declared := by
  have hown {name : Option String} {content : ComplexContent}
      (hcontent : content.declared ⊆ model.declared) :
      ∀ p ∈ content.own?.toList.map (⟨·, name⟩ : Particle → DeclaredParticle),
        p.particle.term.declared ⊆ model.declared := by
    intro p hp
    obtain ⟨q, hq, rfl⟩ := List.mem_map.mp hp
    rwa [declared_of_own? (Option.mem_toList.mp hq)] at hcontent
  induction h with
  | alone _ => exact hown hcontent
  | derived hbase _ ih =>
    obtain ⟨base, -, hbase⟩ := Option.bind_eq_some_iff.mp hbase
    have hnamed : (ElementType.named base).declared ⊆ model.declared := by
      simp [ElementType.declared]
    have hdeclared := declared_subset_of_complex? hnamed hbase
    intro p hp
    rcases List.mem_append.mp hp with hp | hp
    · exact ih (List.Subset.trans (ComplexType.sublist_content _).subset hdeclared) p hp
    · exact hown hcontent p hp

end XmlBinding.Binding

namespace XmlBinding.Schema
open Binding

theorem ComplexType.Contains.declared {model : Model} {type : ComplexType}
    (htype : type.declared ⊆ model.declared) {declaredIn : Option String} {t : Term}
    (h : type.Contains model declaredIn t) : t.declared ⊆ model.declared := by
  cases h with
  | particle hps hp _ =>
    exact hps.declared (List.Subset.trans type.sublist_content.subset htype) _ hp

theorem Term.Holds.declared {model : Model} {t t' : Term} (h : t.Holds model t')
    (ht : t.declared ⊆ model.declared) : t'.declared ⊆ model.declared := by
  cases h with
  | @particle g p hp _ =>
    obtain ⟨compositor, particles⟩ := g
    rw [Term.declared, ModelGroup.declared] at ht
    exact List.Subset.trans (sublist_particlesDeclared hp).subset ht
  | reference hg =>
    rw [Term.declared]
    exact (model.sublist_of_group (mem_of_find hg)).subset

theorem Model.Reached.declared {model : Model} {declaredIn : Option String} {t : Term}
    (h : model.Reached declaredIn t) : t.declared ⊆ model.declared := by
  induction h with
  | root hroot h =>
    cases hroot with
    | complexType he _ => exact h.declared (model.sublist_of_complexType he).subset
    | @element e _ he htype =>
      have hdeclared := (e.2.sublist_type.trans (model.sublist_of_element he)).subset
      exact h.declared (declared_subset_of_complex? hdeclared htype)
  | holds _ h ih => exact h.declared ih
  | @content _ _ d _ _ _ htype h ih =>
    rw [Term.declared] at ih
    have hdeclared := List.Subset.trans d.sublist_type.subset ih
    exact h.declared (declared_subset_of_complex? hdeclared htype)

theorem Model.Reached.mem_allElements {model : Model} {declaredIn : Option String}
    {d : ElementDeclaration} (h : model.Reached declaredIn (.element d)) :
    d ∈ model.allElements := by
  have hdeclared := h.declared
  rw [Term.declared] at hdeclared
  exact model.mem_allElements (hdeclared d.mem_declared)

end XmlBinding.Schema

namespace XmlBinding.Binding
open Schema

/-! ## Types that are written alike -/

/-- The place of an element where a built-in type is told apart from one of the schema that is named
as the built-in one is written. -/
def exactPlace? (declaredIn : Option String) (d : ElementDeclaration) :
    Option ((String × TypeName) ⊕ (String × String)) :=
  match d.type, declaredIn with
  | .named t, _ => some (.inl (d.name, t))
  | _, some owner => some (.inr (owner, d.name))
  | _, none => none

/-- What is left of such a place where the name of the type is written. -/
def writtenPlace : (String × TypeName) ⊕ (String × String) → Place
  | .inl (name, type) => .typed name type.text
  | .inr (owner, name) => .inline owner name

theorem place?_eq_map (declaredIn : Option String) (d : ElementDeclaration) :
    place? declaredIn d = (exactPlace? declaredIn d).map writtenPlace := by
  obtain ⟨_, _, type, _⟩ := d
  cases type <;> cases declaredIn <;> rfl

theorem type_of_exactPlace? {declaredIn : Option String} {d : ElementDeclaration} {name : String}
    {type : TypeName} (h : exactPlace? declaredIn d = some (.inl (name, type))) :
    d.type = .named type := by
  obtain ⟨_, _, dtype, _⟩ := d
  cases dtype <;> cases declaredIn <;> simp_all [exactPlace?]

/-- No element that is declared has a type of the schema that is named as a built-in one is
written. -/
def TypesApart (model : Model) : Prop :=
  ∀ d ∈ model.allElements, ∀ builtin, d.type ≠ .named (.schema ("xs:" ++ builtin))

theorem TypesApart.text_inj {model : Model} (h : TypesApart model) {d d' : ElementDeclaration}
    (hd : d ∈ model.allElements) (hd' : d' ∈ model.allElements) {t t' : TypeName}
    (ht : d.type = .named t) (ht' : d'.type = .named t') (heq : t.text = t'.text) : t = t' := by
  cases t with
  | builtin name =>
    cases t' with
    | builtin name' => rw [(String.append_right_inj "xs:").mp heq]
    | schema name' =>
      change "xs:" ++ name = name' at heq
      subst heq
      exact absurd ht' (h d' hd' name)
  | schema name =>
    cases t' with
    | builtin name' =>
      change name = "xs:" ++ name' at heq
      subst heq
      exact absurd ht (h d hd name')
    | schema name' => rw [show name = name' from heq]

/-- Where no two types are written alike, places that tell types apart are shared too. -/
theorem Module.SharesAt.exact {model : Model} {inner : List InnerClass} {m : Module}
    (h : m.SharesAt place? model inner) (hapart : TypesApart model) :
    m.SharesAt exactPlace? model inner := by
  have hplaces : place? = fun declaredIn d => (exactPlace? declaredIn d).map writtenPlace := by
    funext declaredIn d
    exact place?_eq_map declaredIn d
  rw [hplaces] at h
  apply h.of_map
  intro declaredIn d declaredIn' d' p p' hd hd' hp hp' heq
  rcases p with ⟨name, t⟩ | ⟨owner, name⟩ <;> rcases p' with ⟨name', t'⟩ | ⟨owner', name'⟩
  · obtain ⟨rfl, htext⟩ := Place.typed.inj heq
    rw [hapart.text_inj hd.mem_allElements hd'.mem_allElements (type_of_exactPlace? hp)
      (type_of_exactPlace? hp') htext]
  · cases heq
  · cases heq
  · obtain ⟨rfl, rfl⟩ := Place.inline.inj heq
    rfl

/-- A type with an element of that type inside. -/
def holderOf (name : String) (type : TypeName) : ComplexType :=
  let d : ElementDeclaration := ⟨"x", none, .named type, false⟩
  ⟨some name, none, false, false,
    .particle ⟨1, .one, .group ⟨.sequence, [⟨1, .one, .element d⟩]⟩⟩, []⟩

/-- A type that is named as a built-in one is written, and elements of either type. -/
def namesakeSchema : Model where
  complexTypes := [
    ("xs:string", ⟨some "xs:string", none, false, false, .empty, []⟩),
    ("A", holderOf "A" (.builtin "string")), ("B", holderOf "B" (.schema "xs:string"))]

/-- If places tell the types apart, then there is a class for the element inside of either type. -/
theorem exists_inner_of_holder {m : Module} {inner : List InnerClass}
    (h : m.SharesAt exactPlace? namesakeSchema inner) (name : String) (type : TypeName)
    (hholder : ∀ e ∈ namesakeSchema.complexTypes, e.1 = name → e.2 = holderOf name type)
    (hclass : m.classes.any (fun k => k.origin = .complexType && k.xmlName = name) = true) :
    ∃ i ∈ inner, exactPlace? i.declaredIn i.element = some (.inl ("x", type)) := by
  obtain ⟨k, hk, hkind⟩ := List.any_eq_true.mp hclass
  obtain ⟨horigin, hname⟩ : k.origin = .complexType ∧ k.xmlName = name := by simpa using hkind
  cases h.outer k hk (by simp [horigin]) with
  | topLevel he _ _ => cases he
  | complexType he _ _ hxml hrefers =>
    rw [hholder _ he (hxml.symm.trans hname)] at hrefers
    have hone : MaxOccurs.one ≠ .count 0 := by decide
    obtain ⟨className, hat⟩ := hrefers.exists_name (d := ⟨"x", none, .named type, false⟩)
      (.particle (.alone rfl) List.mem_cons_self hone)
      (.single (.particle (p := ⟨1, .one, .element _⟩) List.mem_cons_self hone))
    obtain ⟨i, hi, hplace, -⟩ := hat _ rfl
    exact ⟨i, hi, hplace⟩

end XmlBinding.Binding

namespace XmlBinding
open Schema Binding Xml

/-! ### The document of such a schema -/

theorem attach_eq_singleton {α : Type} {xs : List α} {a : α} (h : xs = [a]) :
    xs.attach = [⟨a, h ▸ List.mem_singleton_self a⟩] := by
  subst h
  rfl

/-- A sequence of a single element is read as the content of its parent. -/
theorem readContentChild_sequence {parent : String} {e c : Element} {d : ElementDeclaration}
    {parts : ContentParts} (he : e.tag = "sequence") (hec : e.elements = [c])
    (hc : c.tag = "element") (href : c.attribute? "ref" = none) (hd : readElement c = .ok d)
    (hoccurs : ∀ name ∈ ["minOccurs", "maxOccurs"],
      e.attribute? name = none ∧ c.attribute? name = none) :
    readContentChild parent e parts = .ok { parts with
      particle := some ⟨1, .one, .group ⟨.sequence, [⟨1, .one, .element d⟩]⟩⟩ } := by
  have hmin := hoccurs "minOccurs" (by simp)
  have hmax := hoccurs "maxOccurs" (by simp)
  have hparticle : readParticle "sequence" c = .ok ⟨1, .one, .element d⟩ := by
    simp [readParticle, readTerm, attributeAs, nameAttribute, readMaximum, hc, href, hmin, hmax, hd,
      bind, Except.bind, pure, Except.pure]
  have hgroup : readModelGroup e = .ok ⟨.sequence, [⟨1, .one, .element d⟩]⟩ := by
    rw [readModelGroup]
    simp [Compositor.ofTag?, he, attach_eq_singleton hec, hc, hparticle, bind, Except.bind, pure,
      Except.pure]
  rw [readContentChild, readParticle, readTerm]
  simp [attributeAs, readMaximum, he, hmin, hmax, hgroup, Compositor.ofTag?, bind, Except.bind,
    pure, Except.pure]

def fieldOutline (type : String) : Outline :=
  schemaElement "element" [("name", "x"), ("type", type)] []

def holderOutline (name type : String) : Outline :=
  schemaElement "complexType" [("name", name)] [schemaElement "sequence" [] [fieldOutline type]]

def namesakeOutline : Outline :=
  schemaElement "schema" [] [schemaElement "complexType" [("name", "xs:string")] [],
    holderOutline "A" "string", holderOutline "B" "xml:xs:string"]

section
variable {scope : Xml.Scope} {name text : String}

theorem readElement_fieldOutline {n : ExpandedName} (h : resolveName scope text = .ok n)
    (hany : (TypeName.ofExpanded n).isAnyType = false) :
    readElement ((fieldOutline text).element (some schemaUri) scope) =
      .ok ⟨"x", none, .named (.ofExpanded n), false⟩ := by
  simp [readElement, fieldOutline, elements_schemaElement, scope_schemaElement,
    attribute?_schemaElement, nameAttribute, attributeAs, requiredText, requiredAs, boolAttribute,
    h, hany, documentation, bind, Except.bind]

theorem readComplexType_holderOutline {type : TypeName}
    (h : readElement ((fieldOutline text).element (some schemaUri) scope) =
      .ok ⟨"x", none, .named type, false⟩) :
    readComplexType ((holderOutline name text).element (some schemaUri) scope) =
      .ok (holderOf name type) := by
  have hcontent (parts : ContentParts) :
      readContentChild "complexType"
        ((schemaElement "sequence" [] [fieldOutline text]).element (some schemaUri) scope) parts =
          _ :=
    readContentChild_sequence tag_schemaElement elements_schemaElement tag_schemaElement
      (by simp [attribute?_schemaElement, fieldOutline]) h
      (by simp [attribute?_schemaElement, fieldOutline])
  rw [readComplexType]
  unfold holderOutline
  rw [attach_eq_singleton elements_schemaElement]
  simp [tag_schemaElement, elements_schemaElement, attribute?_schemaElement, hcontent,
    boolAttribute, attributeAs, documentation, holderOf, bind, Except.bind, pure, Except.pure]

end

/-- The prefix that every document has stands for another namespace than that of the built-in
types. -/
theorem readModel_namesakeOutline :
    readModel (namesakeOutline.element none []) = .ok namesakeSchema := by
  let scope : Xml.Scope := (bindingsOf none (some schemaUri)).inner []
  let empty := (schemaElement "complexType" [("name", "xs:string")] []).element (some schemaUri)
    scope
  let a := (holderOutline "A" "string").element (some schemaUri) scope
  let b := (holderOutline "B" "xml:xs:string").element (some schemaUri) scope
  have hempty : readComplexType empty = .ok ⟨some "xs:string", none, false, false, .empty, []⟩ := by
    cbv
  have ha : readComplexType a = .ok (holderOf "A" (.builtin "string")) := by cbv
  have hb : readComplexType b = .ok (holderOf "B" (.schema "xs:string")) := by
    have hname : resolveName scope "xml:xs:string" = .ok ⟨some xmlUri, "xs:string"⟩ := by cbv
    have htype : TypeName.ofExpanded ⟨some xmlUri, "xs:string"⟩ = .schema "xs:string" := by
      decide +kernel
    apply readComplexType_holderOutline
    rw [readElement_fieldOutline hname (htype ▸ rfl), htype]
  have helements : (namesakeOutline.element none []).elements = [empty, a, b] := rfl
  have htags : (namesakeOutline.element none []).tag = "schema" ∧ empty.tag = "complexType" ∧
      a.tag = "complexType" ∧ b.tag = "complexType" := ⟨rfl, rfl, rfl, rfl⟩
  have hnames : (namesakeOutline.element none []).attribute? "targetNamespace" = none ∧
      requiredText empty "name" = .ok "xs:string" ∧ requiredText a "name" = .ok "A" ∧
      requiredText b "name" = .ok "B" := ⟨rfl, rfl, rfl, rfl⟩
  simp [readModel, readChild, readComponent, Model.add, insertNew, Model.sharedTypeName?,
    namesakeSchema, helements, htags, hnames, hempty, ha, hb, bind, Except.bind, pure, Except.pure]

/-- But both elements refer to one class. -/
theorem not_sharesAt_exactPlace : ∃ source m,
    generate namesakeOutline.document {} = .ok source ∧
      bindSchema namesakeOutline.document false = .ok m ∧
      readSchema false namesakeOutline.document = .ok namesakeSchema ∧
      ¬ ∃ inner, m.SharesAt exactPlace? namesakeSchema inner := by
  have hproper : ∀ p ∈ namesakeOutline.outlines, p.Proper isPlain := by decide +kernel
  obtain ⟨m, hm, hcomputed⟩ := exists_bindSchema_document (P := fun m =>
      (m.classes.filter (·.origin = .localElement)).length = 1 ∧
      m.classes.any (fun k => k.origin = .complexType && k.xmlName = "A") = true ∧
      m.classes.any (fun k => k.origin = .complexType && k.xmlName = "B") = true)
    hproper readModel_namesakeOutline (by decide +kernel) false
  obtain ⟨source, hsource⟩ := exists_generate hm
  have hread := (readSchema_document hproper false).trans readModel_namesakeOutline
  refine ⟨source, m, hsource, hm, hread, ?_⟩
  rintro ⟨inner, h⟩
  obtain ⟨hone, hA, hB⟩ := of_decide_eq_true hcomputed
  obtain ⟨i, hi, hbuiltin⟩ := exists_inner_of_holder h "A" (.builtin "string")
    (by simp [namesakeSchema]) hA
  obtain ⟨j, hj, hschema⟩ := exists_inner_of_holder h "B" (.schema "xs:string")
    (by simp [namesakeSchema]) hB
  rw [h.classes, List.length_map] at hone
  obtain ⟨one, rfl⟩ := List.length_eq_one_iff.mp hone
  obtain rfl := List.mem_singleton.mp hi
  obtain rfl := List.mem_singleton.mp hj
  rw [hbuiltin] at hschema
  cases hschema

/-! ## Whatever is generated -/

/-- Wherever code is generated, the elements inside of types share one class at each place: one for
every name of an element and of its type, as types are written, and for an element whose type is
declared in place one for the type that declares the element. Types that are written differently are
told apart by that. -/
theorem sharesAt_of_generate {text source : String} {options : Options}
    (h : generate text options = .ok source) :
    ∃ m modules support model inner, bindSchema text options.allowDoctype = .ok m ∧
      source = (Code.sourceFile m modules support).text ∧
      readSchema options.allowDoctype text = .ok model ∧ m.SharesAt place? model inner ∧
      (TypesApart model → m.SharesAt exactPlace? model inner) := by
  obtain ⟨m, modules, support, hm, hsource⟩ := exists_of_generate h
  obtain ⟨model, hread, hbound⟩ := bindSchema_eq_ok.mp hm
  obtain ⟨inner, hshares⟩ := Module.sharesAt_of_ofModel (keyed_of_readSchema hread) hbound
  exact ⟨m, modules, support, model, inner, hm, hsource, hread, hshares, hshares.exact⟩

/-- A type with an element of its own type and one that is declared in a group, a type that extends
it, and an element of it. -/
def nodeOutline : Outline :=
  let part (tag : String) (attributes : List (String × String)) (children : List Outline) :
      Outline := ⟨tag, none, attributes, none, children⟩
  let item := [("name", "item"), ("type", "Node")]
  part "schema" [] [
    part "complexType" [("name", "Node")] [part "sequence" [] [
      part "element" item [], part "group" [("ref", "g")] []]],
    part "complexType" [("name", "Leaf")] [part "complexContent" [] [
      part "extension" [("base", "Node")] [part "sequence" [] [part "element" item []]]]],
    part "group" [("name", "g")] [part "sequence" [] [
      part "element" [("name", "mark")] [part "complexType" [] []]]],
    part "element" [("name", "root"), ("type", "Node")] []]

def nodeSchema : Model :=
  let item : ElementDeclaration := ⟨"item", none, .named (.schema "Node"), false⟩
  let mark : ElementDeclaration :=
    ⟨"mark", none, .complex ⟨none, none, false, false, .empty, []⟩, false⟩
  { complexTypes := [
      ("Node", ⟨some "Node", none, false, false, .particle ⟨1, .one, .group ⟨.sequence,
        [⟨1, .one, .element item⟩, ⟨1, .one, .groupRef "g"⟩]⟩⟩, []⟩),
      ("Leaf", ⟨some "Leaf", none, false, false, .extension (.schema "Node")
        (some ⟨1, .one, .group ⟨.sequence, [⟨1, .one, .element item⟩]⟩⟩), []⟩)]
    elements := [("root", ⟨"root", none, .named (.schema "Node"), false⟩)]
    groups := [("g", ⟨"g", none, ⟨.sequence, [⟨1, .one, .element mark⟩]⟩⟩)] }

theorem readModel_nodeOutline : readModel (nodeOutline.element none []) = .ok nodeSchema := by
  cbv

theorem typesApart_nodeSchema : TypesApart nodeSchema := by
  have hne (builtin : String) : "Node" ≠ "xs:" ++ builtin := by
    intro heq
    have hchars := congrArg String.toList heq
    rw [String.toList_append] at hchars
    cases hchars
  simp [TypesApart, nodeSchema, Model.allElements, Model.declared, ElementDeclaration.declared,
    ElementType.declared, ComplexType.declared, ComplexContent.declared, ModelGroup.declared,
    particlesDeclared, Term.declared, hne]

/-- The classes of a module with what their slots refer to. -/
def Binding.Module.references (m : Module) : List (String × List (String × String)) :=
  m.classes.map fun k => (k.name, k.membership.elim [] (·.named))

theorem sharesAt_nodeOutline : ∃ source, generate nodeOutline.document {} = .ok source ∧
    ∃ m modules support inner, bindSchema nodeOutline.document false = .ok m ∧
      m.references = [("Mark", []),
        ("Item", [("item", "Item"), ("mark", "Mark")]),
        ("Node", [("item", "Item"), ("mark", "Mark")]),
        ("Leaf", [("item", "Item"), ("mark", "Mark"), ("item", "Item")]),
        ("Root", [("item", "Item"), ("mark", "Mark")])] ∧
      source = (Code.sourceFile m modules support).text ∧
      readSchema false nodeOutline.document = .ok nodeSchema ∧ TypesApart nodeSchema ∧
      m.SharesAt place? nodeSchema inner ∧ m.SharesAt exactPlace? nodeSchema inner := by
  have hproper : ∀ p ∈ nodeOutline.outlines, p.Proper isPlain := by decide +kernel
  have hread := (readSchema_document hproper false).trans readModel_nodeOutline
  obtain ⟨m, hm, hreferences⟩ := exists_bindSchema_document (P := fun m => m.references =
      [("Mark", []),
        ("Item", [("item", "Item"), ("mark", "Mark")]),
        ("Node", [("item", "Item"), ("mark", "Mark")]),
        ("Leaf", [("item", "Item"), ("mark", "Mark"), ("item", "Item")]),
        ("Root", [("item", "Item"), ("mark", "Mark")])])
    hproper readModel_nodeOutline (by decide +kernel) false
  obtain ⟨source, hsource⟩ := exists_generate hm
  obtain ⟨m', modules, support, model, inner, hm', htext, hread', hshares, hexact⟩ :=
    sharesAt_of_generate hsource
  obtain rfl : m' = m := Except.ok.inj (hm'.symm.trans hm)
  obtain rfl : model = nodeSchema := Except.ok.inj (hread'.symm.trans hread)
  exact ⟨source, hsource, m', modules, support, inner, hm, of_decide_eq_true hreferences, htext,
    hread, typesApart_nodeSchema, hshares, hexact typesApart_nodeSchema⟩

end XmlBinding
