import Mathlib.Data.List.Forall2
import XmlBinding.Proofs.Schema.Keys
import XmlBinding.Proofs.Xml.AttributeOrder

/-! # Elements that are read alike

Of the elements of a schema only local names and character data are read, and attributes by what
their values are converted to. So documents whose attributes are converted alike, element by element,
are read as the same schema, or both are refused.
-/
namespace XmlBinding.Schema
open Text Xml

/-! ## Readers -/

/-- Results that are alike: related values, or errors that are related. -/
inductive Alike {ε α β : Type} (E : ε → ε → Prop) (S : α → β → Prop) :
    Except ε α → Except ε β → Prop
  | ok {a : α} {b : β} (h : S a b) : Alike E S (.ok a) (.ok b)
  | error {x y : ε} (h : E x y) : Alike E S (.error x) (.error y)

section
variable {ε α β γ δ : Type} {E : ε → ε → Prop} {R : α → β → Prop} {S : γ → δ → Prop}

theorem Alike.bind {x : Except ε α} {y : Except ε β} {f : α → Except ε γ} {g : β → Except ε δ}
    (h : Alike E R x y) (hfg : ∀ a b, R a b → Alike E S (f a) (g b)) :
    Alike E S (x >>= f) (y >>= g) := by
  cases h with
  | ok hab => exact hfg _ _ hab
  | error hxy => exact .error hxy

/-- Where the same is read first. -/
theorem Alike.bind_eq {x y : Except ε α} {f : α → Except ε γ} {g : α → Except ε δ}
    (h : Alike E Eq x y) (hfg : ∀ a, Alike E S (f a) (g a)) : Alike E S (x >>= f) (y >>= g) := by
  refine h.bind ?_
  rintro a _ rfl
  exact hfg a

theorem Alike.mono {x : Except ε α} {y : Except ε β} {T : α → β → Prop} (h : Alike E R x y)
    (hRT : ∀ a b, R a b → T a b) : Alike E T x y := by
  cases h with
  | ok hab => exact .ok (hRT _ _ hab)
  | error hxy => exact .error hxy

theorem alike_self (hE : ∀ x, E x x) (x : Except ε α) : Alike E Eq x x := by
  cases x with
  | ok a => exact .ok rfl
  | error e => exact .error (hE e)

theorem Alike.toOption_eq {x y : Except ε α} (h : Alike E Eq x y) : x.toOption = y.toOption := by
  cases h with
  | ok hab => rw [hab]
  | error => rfl

theorem Alike.eq {x y : Except ε (Option α)} (h : Alike E (Option.Rel Eq) x y) : Alike E Eq x y := by
  cases h with
  | error hxy => exact .error hxy
  | ok hab =>
    cases hab with
    | none => exact .ok rfl
    | some hab => exact .ok (congrArg some hab)

theorem alike_mapM {f : α → Except ε γ} {g : β → Except ε δ} {xs : List α} {ys : List β}
    (h : List.Forall₂ R xs ys) (hfg : ∀ a b, R a b → Alike E S (f a) (g b)) :
    Alike E (List.Forall₂ S) (xs.mapM f) (ys.mapM g) := by
  induction h with
  | nil => exact .ok .nil
  | cons hab _ ih =>
    rw [List.mapM_cons, List.mapM_cons]
    refine (hfg _ _ hab).bind fun c d hcd => ih.bind fun cs ds hcds => ?_
    exact .ok (.cons hcd hcds)

/-- Where each member is read as the same. -/
theorem alike_mapM_eq {f : α → Except ε γ} {g : β → Except ε γ} {xs : List α} {ys : List β}
    (h : List.Forall₂ R xs ys) (hfg : ∀ a b, R a b → Alike E Eq (f a) (g b)) :
    Alike E Eq (xs.mapM f) (ys.mapM g) := by
  have hlists := alike_mapM h hfg
  rwa [List.forall₂_eq_eq_eq] at hlists

theorem alike_foldlM {f : γ → α → Except ε γ} {g : γ → β → Except ε γ} {xs : List α} {ys : List β}
    (h : List.Forall₂ R xs ys) (hfg : ∀ c a b, R a b → Alike E Eq (f c a) (g c b)) (c : γ) :
    Alike E Eq (xs.foldlM f c) (ys.foldlM g c) := by
  induction h generalizing c with
  | nil => exact .ok rfl
  | cons hab _ ih =>
    rw [List.foldlM_cons, List.foldlM_cons]
    exact (hfg c _ _ hab).bind_eq ih

/-- Related lists are related also as lists of their own members. -/
theorem forall₂_attach {xs : List α} {ys : List β} (h : List.Forall₂ R xs ys) :
    List.Forall₂ (fun (a : {a // a ∈ xs}) (b : {b // b ∈ ys}) => R a.1 b.1) xs.attach ys.attach := by
  rw [← List.forall₂_map_left_iff (f := Subtype.val) (R := fun a (b : {b // b ∈ ys}) => R a b.1),
    ← List.forall₂_map_right_iff (f := Subtype.val)]
  simpa using h

/-- Of related lists the first members that are looked for are related. -/
theorem find?_rel {xs : List α} {ys : List β} (h : List.Forall₂ R xs ys) {p : α → Bool}
    {q : β → Bool} (hpq : ∀ a b, R a b → p a = q b) :
    Option.Rel (fun a b => R a b ∧ p a = true) (xs.find? p) (ys.find? q) := by
  induction h with
  | nil => exact .none
  | @cons a b _ _ hab _ ih =>
    rw [List.find?_cons, List.find?_cons, ← hpq a b hab]
    cases hp : p a with
    | true => exact .some ⟨hab, hp⟩
    | false => exact ih

end

/-- The value of an attribute, or why it is refused. -/
def valueAs {α : Type} (convert : String → Except AttributeFault α) (tag name value : String) :
    Result α :=
  (convert value).mapError (.invalidAttribute tag name value)

theorem alike_valueAs {α β : Type} {F : AttributeFault → AttributeFault → Prop}
    {E : SchemaError → SchemaError → Prop} {S : α → β → Prop} {tag name v v' : String}
    {convert : String → Except AttributeFault α} {convert' : String → Except AttributeFault β}
    (h : Alike F S (convert v) (convert' v'))
    (hE : ∀ x y, F x y → E (.invalidAttribute tag name v x) (.invalidAttribute tag name v' y)) :
    Alike E S (valueAs convert tag name v) (valueAs convert' tag name v') := by
  unfold valueAs
  generalize convert v = x at h ⊢
  generalize convert' v' = y at h ⊢
  cases h with
  | ok hab => exact .ok hab
  | error hxy => exact .error (hE _ _ hxy)

theorem attributeAs_eq {α : Type} (convert : String → Except AttributeFault α) (e : Element)
    (name : String) : attributeAs convert e name =
      (e.attribute? name).elim (.ok none) fun v => valueAs convert e.tag name v >>= (.ok ∘ some) := by
  unfold attributeAs
  cases e.attribute? name with
  | none => rfl
  | some v => cases h : convert v <;> simp [valueAs, h, Except.mapError, Bind.bind, Except.bind]

/-! ## Elements -/

/-- How the names of elements, the prefixes bound there and the attributes may differ. Attributes
inside of an annotation are told apart from the others. -/
structure Likeness where
  name : ExpandedName → ExpandedName → Prop
  scope : Scope → Scope → Prop
  attributes : (remark : Bool) → Scope → Scope → Attribute → Attribute → Prop

mutual

/-- Elements that differ only so. -/
inductive Likeness.Elements (L : Likeness) : Bool → Element → Element → Prop
  | intro {remark : Bool} {e e' : Element} (hname : L.name e.name e'.name)
      (hscope : L.scope e.scope e'.scope)
      (hattributes :
        List.Forall₂ (L.attributes remark e.scope e'.scope) e.attributes e'.attributes)
      (hcontent : Likeness.Contents L (remark || e.tag == "annotation") e.content e'.content) :
      Likeness.Elements L remark e e'

inductive Likeness.Contents (L : Likeness) : Bool → List Content → List Content → Prop
  | nil {remark : Bool} : Likeness.Contents L remark [] []
  | element {remark : Bool} {e e' : Element} {cs cs' : List Content}
      (he : Likeness.Elements L remark e e') (hcs : Likeness.Contents L remark cs cs') :
      Likeness.Contents L remark (.element e :: cs) (.element e' :: cs')
  | other {remark : Bool} {c : Content} {cs cs' : List Content} (hc : c.element? = none)
      (hcs : Likeness.Contents L remark cs cs') : Likeness.Contents L remark (c :: cs) (c :: cs')

end

section
variable {L : Likeness} {remark : Bool} {e e' : Element}

theorem Likeness.Contents.elements {cs cs' : List Content} (h : L.Contents remark cs cs') :
    List.Forall₂ (L.Elements remark) (cs.filterMap Content.element?)
      (cs'.filterMap Content.element?) := by
  match h with
  | .nil => exact .nil
  | .element he hcs => exact .cons he hcs.elements
  | .other hc hcs =>
    rw [List.filterMap_cons_none hc, List.filterMap_cons_none hc]
    exact hcs.elements

theorem Likeness.Elements.elements (h : L.Elements false e e') (htag : e.tag ≠ "annotation") :
    List.Forall₂ (L.Elements false) e.elements e'.elements := by
  obtain ⟨_, _, _, hcontent⟩ := h
  have hremark : (e.tag == "annotation") = false := by simpa using htag
  rw [hremark] at hcontent
  exact hcontent.elements

mutual

theorem flatText_alike : ∀ {remark : Bool} {e e' : Element}, L.Elements remark e e' →
    Element.flatText e = Element.flatText e'
  | _, ⟨_, _, _, _⟩, ⟨_, _, _, _⟩, .intro _ _ _ hcontent => by
    rw [Element.flatText, Element.flatText, flatTexts_alike hcontent]

theorem flatTexts_alike : ∀ {remark : Bool} {cs cs' : List Content}, L.Contents remark cs cs' →
    flatTexts cs = flatTexts cs'
  | _, _, _, .nil => rfl
  | _, _, _, .element he hcs => by
    rw [flatTexts, flatTexts, Content.flatText, Content.flatText, flatText_alike he,
      flatTexts_alike hcs]
  | _, _, _, .other _ hcs => by rw [flatTexts, flatTexts, flatTexts_alike hcs]

end

end

/-! ## Attributes -/

/-- Values that the attribute of a name may have in elements that are alike. -/
def Likeness.Values (L : Likeness) (name : String) (scope scope' : Scope) (v v' : String) : Prop :=
  L.scope scope scope' ∧ L.attributes false scope scope' ⟨⟨none, name⟩, v⟩ ⟨⟨none, name⟩, v'⟩

/-- Attributes whose values are taken as they are. -/
def textAttributes : List String := ["name", "value", "default", "fixed", "use", "targetNamespace"]

/-- Attributes that refer to a component by its name. -/
def referenceAttributes : List String := ["type", "base", "ref", "itemType"]

/-- Names that refer to the same. -/
def SameReference (n n' : ExpandedName) : Prop := TypeName.ofExpanded n = TypeName.ofExpanded n'

/-- The names in a list of names. -/
def resolveNames (scope : Scope) (s : String) : Except AttributeFault (List ExpandedName) :=
  (asciiWords s).mapM (resolveName scope)

/-- Attributes of elements that are alike are converted alike, each as it is read: to a text, to a
truth value, to a number or to names. -/
structure Likeness.ReadAlike (L : Likeness) (E : SchemaError → SchemaError → Prop) : Prop where
  refl (x : SchemaError) : E x x
  localName {n n' : ExpandedName} (h : L.name n n') : n.localName = n'.localName
  attributeName {s s' : Scope} {a a' : Attribute} (h : L.attributes false s s' a a') :
    a.name = a'.name
  text {name : String} {s s' : Scope} {v v' : String}
    (hname : name ∈ textAttributes)
    (h : L.Values name s s' v v') : v = v'
  flag {name : String} {s s' : Scope} {v v' : String} (hname : name ∈ ["abstract", "mixed"])
    (h : L.Values name s s' v v') (tag : String) :
    Alike E Eq (valueAs convertBool tag name v) (valueAs convertBool tag name v')
  count {name : String} {s s' : Scope} {v v' : String} (hname : name ∈ ["minOccurs", "maxOccurs"])
    (h : L.Values name s s' v v') (tag : String) :
    Alike E Eq (valueAs convertCount tag name v) (valueAs convertCount tag name v')
  unbounded {s s' : Scope} {v v' : String} (h : L.Values "maxOccurs" s s' v v') :
    v = "unbounded" ↔ v' = "unbounded"
  reference {name : String} {s s' : Scope} {v v' : String}
    (hname : name ∈ referenceAttributes) (h : L.Values name s s' v v')
    (tag : String) :
    Alike E SameReference (valueAs (resolveName s) tag name v)
      (valueAs (resolveName s') tag name v')
  references {s s' : Scope} {v v' : String} (h : L.Values "memberTypes" s s' v v')
    (tag : String) :
    Alike E (List.Forall₂ SameReference) (valueAs (resolveNames s) tag "memberTypes" v)
      (valueAs (resolveNames s') tag "memberTypes" v')

section
variable {L : Likeness} {E : SchemaError → SchemaError → Prop} {e e' : Element} {name : String}
  {α β : Type} {S : α → β → Prop}

namespace Likeness.ReadAlike

theorem attribute? (hL : L.ReadAlike E) (h : L.Elements false e e') (name : String) :
    Option.Rel (L.Values name e.scope e'.scope) (e.attribute? name) (e'.attribute? name) := by
  obtain ⟨_, hscope, hattributes, _⟩ := h
  refine optionRel_map (find?_rel hattributes fun a a' ha => ?_) ?_
  · rw [hL.attributeName ha]
  · rintro ⟨n, v⟩ ⟨n', v'⟩ ⟨ha, hn⟩
    obtain rfl : n = n' := hL.attributeName ha
    obtain rfl : n = ⟨none, name⟩ := eq_of_beq hn
    exact ⟨hscope, ha⟩

theorem tag (hL : L.ReadAlike E) {remark : Bool} (h : L.Elements remark e e') : e.tag = e'.tag := by
  obtain ⟨hname, _, _, _⟩ := h
  exact hL.localName hname

theorem attributeAs (hL : L.ReadAlike E) (h : L.Elements false e e')
    {convert : String → Except AttributeFault α} {convert' : String → Except AttributeFault β}
    (hconvert : ∀ v v', L.Values name e.scope e'.scope v v' →
      Alike E S (valueAs convert e.tag name v) (valueAs convert' e.tag name v')) :
    Alike E (Option.Rel S) (attributeAs convert e name) (attributeAs convert' e' name) := by
  have hvalue := hL.attribute? h name
  rw [attributeAs_eq, attributeAs_eq, ← hL.tag h]
  generalize e.attribute? name = o at hvalue ⊢
  generalize e'.attribute? name = o' at hvalue ⊢
  cases hvalue with
  | none => exact .ok .none
  | some hv => exact (hconvert _ _ hv).bind fun a b hab => .ok (.some hab)

theorem text? (hL : L.ReadAlike E) (h : L.Elements false e e') (name : String)
    (hname : name ∈ textAttributes) :
    e.attribute? name = e'.attribute? name := by
  have hvalue := hL.attribute? h name
  generalize e.attribute? name = o at hvalue ⊢
  generalize e'.attribute? name = o' at hvalue ⊢
  cases hvalue with
  | none => rfl
  | some hv => rw [hL.text hname hv]

theorem requiredAs (hL : L.ReadAlike E) (h : L.Elements false e e')
    {convert : String → Except AttributeFault α} {convert' : String → Except AttributeFault β}
    (hconvert : ∀ v v', L.Values name e.scope e'.scope v v' →
      Alike E S (valueAs convert e.tag name v) (valueAs convert' e.tag name v')) :
    Alike E S (requiredAs convert e name) (requiredAs convert' e' name) := by
  refine (hL.attributeAs h hconvert).bind fun o o' ho => ?_
  cases ho with
  | some hab => exact .ok hab
  | none =>
    rw [hL.tag h]
    exact .error (hL.refl _)

theorem requiredText (hL : L.ReadAlike E) (h : L.Elements false e e')
    (hname : name ∈ textAttributes) :
    Alike E Eq (requiredText e name) (requiredText e' name) :=
  hL.requiredAs h fun _ _ hv => .ok (hL.text hname hv)

theorem requiredName (hL : L.ReadAlike E) (h : L.Elements false e e')
    (hname : name ∈ referenceAttributes) :
    Alike E SameReference (requiredName e name) (requiredName e' name) :=
  hL.requiredAs h fun _ _ hv => hL.reference hname hv _

theorem nameAttribute (hL : L.ReadAlike E) (h : L.Elements false e e')
    (hname : name ∈ referenceAttributes) :
    Alike E (Option.Rel SameReference) (nameAttribute e name) (nameAttribute e' name) :=
  hL.attributeAs h fun _ _ hv => hL.reference hname hv _

theorem boolAttribute (hL : L.ReadAlike E) (h : L.Elements false e e')
    (hname : name ∈ ["abstract", "mixed"]) :
    Alike E Eq (boolAttribute e name) (boolAttribute e' name) :=
  (hL.attributeAs h fun _ _ hv => hL.flag hname hv _).eq

theorem countAttribute (hL : L.ReadAlike E) (h : L.Elements false e e')
    (hname : name ∈ ["minOccurs", "maxOccurs"]) :
    Alike E Eq (Schema.attributeAs convertCount e name)
      (Schema.attributeAs convertCount e' name) :=
  (hL.attributeAs h fun _ _ hv => hL.count hname hv _).eq

theorem readMaximum (hL : L.ReadAlike E) (h : L.Elements false e e') :
    Alike E Eq (readMaximum e) (readMaximum e') := by
  have hunbounded : e.attribute? "maxOccurs" = some "unbounded" ↔
      e'.attribute? "maxOccurs" = some "unbounded" := by
    have hvalue := hL.attribute? h "maxOccurs"
    generalize e.attribute? "maxOccurs" = o at hvalue ⊢
    generalize e'.attribute? "maxOccurs" = o' at hvalue ⊢
    cases hvalue with
    | none => exact Iff.rfl
    | some hv => simpa using hL.unbounded hv
  unfold Schema.readMaximum
  by_cases he : e.attribute? "maxOccurs" = some "unbounded"
  · rw [if_pos he, if_pos (hunbounded.mp he)]
    exact .ok rfl
  · rw [if_neg he, if_neg (mt hunbounded.mpr he)]
    exact (hL.countAttribute h (by simp)).bind_eq fun _ => .ok rfl

/-! ## Readers of elements -/

/-- Children that are found by their tags, and what is made of them. -/
theorem map_filter (hL : L.ReadAlike E) {remark : Bool} {cs cs' : List Element}
    (h : List.Forall₂ (L.Elements remark) cs cs') (p : String → Bool) {f : Element → α}
    (hf : ∀ c c', L.Elements remark c c' → f c = f c') :
    (cs.filter (p ·.tag)).map f = (cs'.filter (p ·.tag)).map f := by
  induction h with
  | nil => rfl
  | @cons c c' _ _ hc _ ih =>
    rw [List.filter_cons, List.filter_cons, ← hL.tag hc]
    cases p c.tag with
    | true => simpa [hf c c' hc] using ih
    | false => simpa using ih

theorem annotationTexts (hL : L.ReadAlike E) {remark : Bool} (h : L.Elements remark e e') :
    annotationTexts e = annotationTexts e' := by
  obtain ⟨_, _, _, hcontent⟩ := h
  unfold Schema.annotationTexts Element.elements
  rw [hL.map_filter hcontent.elements (· == "documentation") fun c c' hc => by
    rw [flatText_alike hc]]

theorem documentation (hL : L.ReadAlike E) (h : L.Elements false e e') :
    documentation e = documentation e' := by
  obtain ⟨_, _, _, hcontent⟩ := h
  unfold Schema.documentation Element.elements
  rw [List.flatMap_def, List.flatMap_def, hL.map_filter hcontent.elements (· == "annotation")
    fun c c' hc => hL.annotationTexts hc]

end Likeness.ReadAlike

theorem SameReference.localName {n n' : ExpandedName} (h : SameReference n n') :
    n.localName = n'.localName := by
  rw [← TypeName.localName_ofExpanded n, h, TypeName.localName_ofExpanded]

theorem map_named {ns ns' : List ExpandedName} (h : List.Forall₂ SameReference ns ns') :
    (ns.map fun n => SimpleTypeRef.named (.ofExpanded n)) =
      ns'.map fun n => SimpleTypeRef.named (.ofExpanded n) := by
  induction h with
  | nil => rfl
  | cons hn _ ih => rw [List.map_cons, List.map_cons, ih, hn]

theorem readSimpleContent_eq (e : Element) (parts : ContentParts) :
    readSimpleContent e parts =
      (derivation? e).elim (.error (.missingContent e.tag .derivation)) (fun d => do
        let content ← if d.tag = "extension" then do
            Except.ok (ComplexContent.simpleExtension (← requiredBase d))
          else do Except.ok (ComplexContent.simpleRestriction (← readRestriction d))
        readDerivation d { parts with content := some content }) := by
  rw [readSimpleContent]
  split
  · next hd => rw [hd, Option.elim_none]
  · next d hd => rw [hd, Option.elim_some]

variable (hL : L.ReadAlike E)
include hL

theorem unexpected_alike {e e' c c' : Element} (he : L.Elements false e e')
    (hc : L.Elements false c c') :
    Alike E S (.error (unexpected e c)) (.error (unexpected e' c')) := by
  rw [unexpected, unexpected, hL.tag he, hL.tag hc]
  exact .error (hL.refl _)

theorem facetsAdd_alike {r r' c c' : Element} (hr : L.Elements false r r')
    (h : L.Elements false c c') (f : Facets) : Alike E Eq (f.add r c) (f.add r' c') := by
  have hvalue : Alike E Eq (requiredText c "value") (requiredText c' "value") :=
    hL.requiredText h (by simp [textAttributes])
  unfold Facets.add
  rw [← hL.tag h, ← hL.documentation h]
  by_cases h1 : c.tag = "enumeration"
  · rw [if_pos h1, if_pos h1]
    exact hvalue.bind_eq fun v => .ok rfl
  rw [if_neg h1, if_neg h1]
  by_cases h2 : c.tag = "pattern"
  · rw [if_pos h2, if_pos h2]
    exact hvalue.bind_eq fun v => .ok rfl
  rw [if_neg h2, if_neg h2]
  by_cases h3 : otherFacets.contains c.tag = true
  · rw [if_pos h3, if_pos h3]
    exact .ok rfl
  rw [if_neg h3, if_neg h3]
  split
  · exact .ok rfl
  · exact unexpected_alike hL hr h

mutual

theorem readSimpleType_alike {e e' : Element} (h : L.Elements false e e')
    (htag : e.tag ≠ "annotation") : Alike E Eq (readSimpleType e) (readSimpleType e') := by
  rw [readSimpleType, readSimpleType]
  refine Alike.bind_eq (alike_foldlM (forall₂_attach (h.elements htag)) ?_ none) ?_
  · intro found ⟨c, hc⟩ ⟨c', hc'⟩ hcc
    dsimp only
    rw [← hL.tag hcc, ← hL.tag h]
    split
    · exact .ok rfl
    · next hremark =>
      refine (readVariety_alike e.tag hcc hremark).bind_eq fun variety => ?_
      split
      · exact unexpected_alike hL h hcc
      · exact .ok rfl
  · intro variety
    cases variety with
    | none => exact .error (hL.refl _)
    | some variety =>
      rw [hL.text? h _ (by simp [textAttributes]), hL.documentation h]
      exact .ok rfl
termination_by (sizeOf e, 3)
decreasing_by exact Prod.Lex.left _ _ (Element.sizeOf_lt_of_mem hc)

theorem readVariety_alike (parent : String) {e e' : Element} (h : L.Elements false e e')
    (htag : e.tag ≠ "annotation") :
    Alike E Eq (readVariety parent e) (readVariety parent e') := by
  rw [readVariety, readVariety, ← hL.tag h]
  split
  · exact (readRestriction_alike h htag).bind_eq fun r => .ok rfl
  · exact (readList_alike h htag).bind_eq fun item => .ok rfl
  · exact (readUnion_alike h htag).bind_eq fun members => .ok rfl
  · exact .error (hL.refl _)
termination_by (sizeOf e, 2)

theorem readRestriction_alike {e e' : Element} (h : L.Elements false e e')
    (htag : e.tag ≠ "annotation") : Alike E Eq (readRestriction e) (readRestriction e') := by
  rw [readRestriction, readRestriction]
  refine (readSimpleRef_alike (by simp [referenceAttributes]) h htag).bind_eq fun base => ?_
  cases base with
  | none => exact .error (hL.refl _)
  | some base =>
    exact (alike_foldlM (h.elements htag) (fun f c c' hc => facetsAdd_alike hL h hc f) {}).bind_eq
      fun facets => .ok rfl
termination_by (sizeOf e, 1)

theorem readList_alike {e e' : Element} (h : L.Elements false e e')
    (htag : e.tag ≠ "annotation") : Alike E Eq (readList e) (readList e') := by
  rw [readList, readList]
  refine (readSimpleRef_alike (by simp [referenceAttributes]) h htag).bind_eq fun item => ?_
  cases item with
  | none => exact .error (hL.refl _)
  | some item => exact .ok rfl
termination_by (sizeOf e, 1)

theorem readUnion_alike {e e' : Element} (h : L.Elements false e e')
    (htag : e.tag ≠ "annotation") : Alike E Eq (readUnion e) (readUnion e') := by
  rw [readUnion, readUnion]
  refine (hL.attributeAs h fun v v' hv => hL.references hv e.tag).bind fun names names' hnames => ?_
  refine Alike.bind_eq (alike_mapM_eq (forall₂_attach (h.elements htag)) ?_) fun inline => ?_
  · intro ⟨c, hc⟩ ⟨c', hc'⟩ hcc
    have hcc' : c.tag = c'.tag := hL.tag hcc
    dsimp only
    rw [← hcc']
    split
    · exact .ok rfl
    · next hsimple =>
      exact (readSimpleType_alike hcc (by rw [hsimple]; decide)).bind_eq fun t => .ok rfl
    · exact unexpected_alike hL h hcc
  · cases hnames with
    | none => exact .ok rfl
    | some hnames => exact .ok (by simp [map_named hnames])
termination_by (sizeOf e, 1)
decreasing_by exact Prod.Lex.left _ _ (Element.sizeOf_lt_of_mem hc)

theorem readSimpleRef_alike {name : String} (hname : name ∈ referenceAttributes) {e e' : Element}
    (h : L.Elements false e e') (htag : e.tag ≠ "annotation") :
    Alike E Eq (readSimpleRef e name) (readSimpleRef e' name) := by
  rw [readSimpleRef, readSimpleRef]
  refine (hL.nameAttribute h hname).bind fun n n' hn => ?_
  cases hn with
  | some hn => exact .ok (by rw [hn])
  | none =>
    dsimp only
    have hfind := find?_rel (h.elements htag) (p := (·.tag == "simpleType"))
      (q := (·.tag == "simpleType")) fun c c' hc => by rw [hL.tag hc]
    split <;> split
    · next c hc c' hc' =>
      rw [hc, hc'] at hfind
      obtain ⟨hcc, hsimple⟩ := hfind
      have hc : c ∈ e.elements := List.mem_of_find?_eq_some hc
      exact (readSimpleType_alike hcc (by rw [eq_of_beq hsimple]; decide)).bind_eq
        fun t => .ok rfl
    · next hc hc' => rw [hc, hc'] at hfind; cases hfind
    · next hc _ hc' => rw [hc, hc'] at hfind; cases hfind
    · exact .ok rfl
termination_by (sizeOf e, 0)
decreasing_by exact Prod.Lex.left _ _ (Element.sizeOf_lt_of_mem hc)

end

theorem readAttribute_alike {e e' : Element} (h : L.Elements false e e')
    (htag : e.tag ≠ "annotation") : Alike E Eq (readAttribute e) (readAttribute e') := by
  unfold readAttribute
  rw [← hL.documentation h, ← hL.text? h "default" (by simp [textAttributes]),
    ← hL.text? h "fixed" (by simp [textAttributes])]
  refine (hL.requiredText h (by simp [textAttributes])).bind_eq fun name => ?_
  exact (readSimpleRef_alike hL (by simp [referenceAttributes]) h htag).bind_eq fun t => .ok rfl

theorem readAttributeUse_alike {e e' : Element} (h : L.Elements false e e')
    (htag : e.tag ≠ "annotation") : Alike E Eq (readAttributeUse e) (readAttributeUse e') := by
  unfold readAttributeUse
  rw [← hL.tag h, ← hL.text? h "use" (by simp [textAttributes])]
  split
  · split
    · exact .ok rfl
    · refine (hL.nameAttribute h (by simp [referenceAttributes])).bind fun n n' hn => ?_
      cases hn with
      | some hn => exact .ok (by rw [hn.localName])
      | none => exact (readAttribute_alike hL h htag).bind_eq fun d => .ok rfl
  · exact (hL.requiredName h (by simp [referenceAttributes])).bind fun n n' hn =>
      .ok (by rw [hn.localName])
  · exact .error (hL.refl _)

theorem readAttributeGroup_alike {e e' : Element} (h : L.Elements false e e')
    (htag : e.tag ≠ "annotation") :
    Alike E Eq (readAttributeGroup e) (readAttributeGroup e') := by
  unfold readAttributeGroup
  refine (hL.requiredText h (by simp [textAttributes])).bind_eq fun name => ?_
  refine Alike.bind_eq (alike_mapM_eq (h.elements htag) fun c c' hc => ?_) fun uses => .ok rfl
  rw [← hL.tag hc]
  split
  · exact .ok rfl
  · exact .ok rfl
  · next hattribute => exact readAttributeUse_alike hL hc (by rw [hattribute]; decide)
  · next hgroup => exact readAttributeUse_alike hL hc (by rw [hgroup]; decide)
  · exact unexpected_alike hL h hc

theorem requiredBase_alike {e e' : Element} (h : L.Elements false e e') :
    Alike E Eq (requiredBase e) (requiredBase e') :=
  (hL.requiredName h (by simp [referenceAttributes])).bind fun _ _ hn => .ok hn

theorem derivation?_rel {e e' : Element} (h : L.Elements false e e')
    (htag : e.tag ≠ "annotation") :
    Option.Rel (fun d d' => L.Elements false d d' ∧ d.tag ≠ "annotation") (derivation? e)
      (derivation? e') := by
  refine optionRel_mono (find?_rel (h.elements htag) fun c c' hc => by rw [hL.tag hc]) ?_
  rintro d d' ⟨hd, htags⟩
  refine ⟨hd, fun hremark => ?_⟩
  rw [hremark] at htags
  simp at htags

mutual

theorem readParticle_alike (parent : String) {e e' : Element} (h : L.Elements false e e')
    (htag : e.tag ≠ "annotation") :
    Alike E Eq (readParticle parent e) (readParticle parent e') := by
  rw [readParticle, readParticle]
  refine (hL.countAttribute h (by simp)).bind_eq fun minimum => ?_
  refine (hL.readMaximum h).bind_eq fun maximum => ?_
  exact (readTerm_alike parent h htag).bind_eq fun term => .ok rfl
termination_by (sizeOf e, 2)

theorem readTerm_alike (parent : String) {e e' : Element} (h : L.Elements false e e')
    (htag : e.tag ≠ "annotation") : Alike E Eq (readTerm parent e) (readTerm parent e') := by
  have hname : Alike E (Option.Rel SameReference) (nameAttribute e "ref")
      (nameAttribute e' "ref") := hL.nameAttribute h (by simp [referenceAttributes])
  rw [readTerm, readTerm, ← hL.tag h]
  split
  · refine hname.bind fun n n' hn => ?_
    cases hn with
    | some hn => exact .ok (by rw [hn.localName])
    | none => exact (readElement_alike h htag).bind_eq fun d => .ok rfl
  · refine hname.bind fun n n' hn => ?_
    cases hn with
    | some hn => exact .ok (by rw [hn.localName])
    | none => exact .error (hL.refl _)
  · exact .ok rfl
  · split
    · exact (readModelGroup_alike h htag).bind_eq fun g => .ok rfl
    · exact .error (hL.refl _)
termination_by (sizeOf e, 1)

theorem readModelGroup_alike {e e' : Element} (h : L.Elements false e e')
    (htag : e.tag ≠ "annotation") : Alike E Eq (readModelGroup e) (readModelGroup e') := by
  rw [readModelGroup, readModelGroup, ← hL.tag h]
  split
  · exact .error (hL.refl _)
  · refine Alike.bind_eq (alike_mapM_eq (forall₂_attach (h.elements htag)) ?_) fun ps => .ok rfl
    intro ⟨c, hc⟩ ⟨c', hc'⟩ hcc
    have hcc' : c.tag = c'.tag := hL.tag hcc
    dsimp only
    rw [← hcc']
    split
    · exact .ok rfl
    · next hremark => exact (readParticle_alike e.tag hcc hremark).bind_eq fun p => .ok rfl
termination_by (sizeOf e, 0)
decreasing_by exact Prod.Lex.left _ _ (Element.sizeOf_lt_of_mem hc)

theorem readElement_alike {e e' : Element} (h : L.Elements false e e')
    (htag : e.tag ≠ "annotation") : Alike E Eq (readElement e) (readElement e') := by
  rw [readElement, readElement]
  refine (hL.requiredText h (by simp [textAttributes])).bind_eq fun name => ?_
  refine (hL.boolAttribute h (by simp)).bind_eq fun isAbstract => ?_
  refine (hL.nameAttribute h (by simp [referenceAttributes])).bind fun n n' hn => ?_
  rw [← hL.documentation h]
  cases hn with
  | some hn => exact .ok (by rw [hn])
  | none =>
    refine Alike.bind_eq (alike_foldlM (forall₂_attach (h.elements htag)) ?_ _) fun type => .ok rfl
    intro found ⟨c, hc⟩ ⟨c', hc'⟩ hcc
    have hcc' : c.tag = c'.tag := hL.tag hcc
    dsimp only
    rw [← hcc']
    split
    · next hsimple =>
      exact (readSimpleType_alike hL hcc (by rw [hsimple]; decide)).bind_eq fun t => .ok rfl
    · next hcomplex =>
      exact (readComplexType_alike hcc (by rw [hcomplex]; decide)).bind_eq fun t => .ok rfl
    iterate 5 exact .ok rfl
    · exact unexpected_alike hL h hcc
termination_by (sizeOf e, 0)
decreasing_by exact Prod.Lex.left _ _ (Element.sizeOf_lt_of_mem hc)

theorem readComplexType_alike {e e' : Element} (h : L.Elements false e e')
    (htag : e.tag ≠ "annotation") : Alike E Eq (readComplexType e) (readComplexType e') := by
  rw [readComplexType, readComplexType]
  refine (hL.boolAttribute h (by simp)).bind_eq fun isAbstract => ?_
  refine (hL.boolAttribute h (by simp)).bind_eq fun mixed => ?_
  refine Alike.bind_eq (alike_foldlM (forall₂_attach (h.elements htag)) ?_ _) fun parts => ?_
  · intro parts ⟨c, hc⟩ ⟨c', hc'⟩ hcc
    have hcc' : c.tag = c'.tag := hL.tag hcc
    dsimp only
    rw [← hcc', ← hL.tag h]
    split
    · exact .ok rfl
    · next hsimple => exact readSimpleContent_alike hcc (by rw [hsimple]; decide) parts
    · next hcomplex => exact readComplexContent_alike hcc (by rw [hcomplex]; decide) parts
    · exact .error (hL.refl _)
    · exact .error (hL.refl _)
    · next hremark _ _ _ _ => exact readContentChild_alike e.tag hcc hremark parts
  · rw [← hL.documentation h, ← hL.text? h _ (by simp [textAttributes])]
    exact .ok rfl
termination_by (sizeOf e, 0)
decreasing_by all_goals exact Prod.Lex.left _ _ (Element.sizeOf_lt_of_mem hc)

theorem readContentChild_alike (parent : String) {e e' : Element} (h : L.Elements false e e')
    (htag : e.tag ≠ "annotation") (parts : ContentParts) :
    Alike E Eq (readContentChild parent e parts) (readContentChild parent e' parts) := by
  rw [readContentChild, readContentChild, ← hL.tag h]
  split
  · exact .ok rfl
  · exact .ok rfl
  · exact (readAttributeUse_alike hL h htag).bind_eq fun use => .ok rfl
  · exact (readAttributeUse_alike hL h htag).bind_eq fun use => .ok rfl
  · split
    · exact (readParticle_alike parent h htag).bind_eq fun p => .ok rfl
    · exact .error (hL.refl _)
termination_by (sizeOf e, 3)

theorem readDerivation_alike {e e' : Element} (h : L.Elements false e e')
    (htag : e.tag ≠ "annotation") (parts : ContentParts) :
    Alike E Eq (readDerivation e parts) (readDerivation e' parts) := by
  rw [readDerivation, readDerivation]
  refine alike_foldlM (forall₂_attach (h.elements htag)) ?_ parts
  intro parts ⟨c, hc⟩ ⟨c', hc'⟩ hcc
  have hcc' : c.tag = c'.tag := hL.tag hcc
  dsimp only
  rw [← hcc', ← hL.tag h]
  split
  · exact .ok rfl
  · by_cases hremark : c.tag = "annotation"
    · rw [readContentChild, readContentChild, ← hcc', hremark]
      exact .ok rfl
    · exact readContentChild_alike e.tag hcc hremark parts
termination_by (sizeOf e, 0)
decreasing_by exact Prod.Lex.left _ _ (Element.sizeOf_lt_of_mem hc)

theorem readSimpleContent_alike {e e' : Element} (h : L.Elements false e e')
    (htag : e.tag ≠ "annotation") (parts : ContentParts) :
    Alike E Eq (readSimpleContent e parts) (readSimpleContent e' parts) := by
  have hderivation := derivation?_rel hL h htag
  rw [readSimpleContent_eq, readSimpleContent_eq, ← hL.tag h]
  cases hd : derivation? e <;> cases hd' : derivation? e' <;> rw [hd, hd'] at hderivation <;>
    cases hderivation
  · exact .error (hL.refl _)
  · next d d' hdd =>
    obtain ⟨hdd, hremark⟩ := hdd
    rw [Option.elim_some, Option.elim_some, ← hL.tag hdd]
    dsimp only
    split
    · exact (requiredBase_alike hL hdd).bind_eq fun base => readDerivation_alike hdd hremark _
    · exact (readRestriction_alike hL hdd hremark).bind_eq fun r =>
        readDerivation_alike hdd hremark _
termination_by (sizeOf e, 0)
decreasing_by
  all_goals exact Prod.Lex.left _ _ (Element.sizeOf_lt_of_mem (mem_of_derivation? ‹_›))

theorem readComplexContent_alike {e e' : Element} (h : L.Elements false e e')
    (htag : e.tag ≠ "annotation") (parts : ContentParts) :
    Alike E Eq (readComplexContent e parts) (readComplexContent e' parts) := by
  have hfind := derivation?_rel hL h htag
  rw [readComplexContent, readComplexContent, ← hL.tag h]
  refine (hL.boolAttribute h (by simp)).bind_eq fun mixed => ?_
  split <;> split
  · exact .error (hL.refl _)
  · next hd _ hd' => rw [hd, hd'] at hfind; cases hfind
  · next hd hd' => rw [hd, hd'] at hfind; cases hfind
  · next d hd d' hd' =>
    rw [hd, hd'] at hfind
    obtain ⟨hdd, hremark⟩ := hfind
    rw [← hL.tag hdd]
    refine (requiredBase_alike hL hdd).bind_eq fun base => ?_
    exact (readDerivation_alike hdd hremark _).bind_eq fun parts => .ok rfl
termination_by (sizeOf e, 0)
decreasing_by exact Prod.Lex.left _ _ (Element.sizeOf_lt_of_mem (mem_of_derivation? ‹_›))

end

theorem readGroup_alike {e e' : Element} (h : L.Elements false e e')
    (htag : e.tag ≠ "annotation") : Alike E Eq (readGroup e) (readGroup e') := by
  have hfind := find?_rel (h.elements htag) (p := fun c => (Compositor.ofTag? c.tag).isSome)
    (q := fun c => (Compositor.ofTag? c.tag).isSome) fun c c' hc => by rw [hL.tag hc]
  unfold readGroup
  rw [← hL.documentation h]
  refine (hL.requiredText h (by simp [textAttributes])).bind_eq fun name => ?_
  split <;> split
  · exact .error (hL.refl _)
  · next hc _ _ hc' => rw [hc, hc'] at hfind; cases hfind
  · next hc _ hc' => rw [hc, hc'] at hfind; cases hfind
  · next c hc _ c' hc' =>
    rw [hc, hc'] at hfind
    obtain ⟨hcc, hcompositor⟩ := hfind
    have hremark : c.tag ≠ "annotation" := fun hremark => by
      rw [hremark] at hcompositor
      cases hcompositor
    exact (readModelGroup_alike hL hcc hremark).bind_eq fun g => .ok rfl

theorem readComponent_alike {s s' e e' : Element} (hs : L.Elements false s s')
    (h : L.Elements false e e') : Alike E Eq (readComponent s e) (readComponent s' e') := by
  have hname : Alike E Eq (requiredText e "name") (requiredText e' "name") :=
    hL.requiredText h (by simp [textAttributes])
  unfold readComponent
  rw [← hL.tag h]
  split
  · exact .ok rfl
  · exact .ok rfl
  · next htag =>
    exact (readSimpleType_alike hL h (by rw [htag]; decide)).bind_eq fun t =>
      hname.bind_eq fun name => .ok rfl
  · next htag =>
    exact (readComplexType_alike hL h (by rw [htag]; decide)).bind_eq fun t =>
      hname.bind_eq fun name => .ok rfl
  · next htag => exact (readElement_alike hL h (by rw [htag]; decide)).bind_eq fun d => .ok rfl
  · next htag => exact (readAttribute_alike hL h (by rw [htag]; decide)).bind_eq fun d => .ok rfl
  · next htag =>
    exact (readAttributeGroup_alike hL h (by rw [htag]; decide)).bind_eq fun g => .ok rfl
  · next htag => exact (readGroup_alike hL h (by rw [htag]; decide)).bind_eq fun g => .ok rfl
  · split
    · exact .error (hL.refl _)
    · exact unexpected_alike hL hs h

theorem readChild_alike {s s' e e' : Element} (hs : L.Elements false s s')
    (h : L.Elements false e e') (m : Model) :
    Alike E Eq (readChild s m e) (readChild s' m e') := by
  unfold readChild
  exact (readComponent_alike hL hs h).bind_eq fun component => alike_self hL.refl _

/-- Documents that are alike are read as the same schema, or both are refused. -/
theorem readModel_alike {e e' : Element} (h : L.Elements false e e') :
    Alike E Eq (readModel e) (readModel e') := by
  unfold readModel
  rw [← hL.tag h, ← hL.text? h _ (by simp [textAttributes])]
  by_cases htag : e.tag = "schema"
  · rw [if_neg (not_not.mpr htag), if_neg (not_not.mpr htag)]
    have helements := h.elements (by rw [htag]; decide)
    exact (alike_foldlM helements (fun m c c' hc => readChild_alike hL h hc m) _).bind_eq
      fun m => alike_self hL.refl _
  · rw [if_pos htag, if_pos htag]
    exact .error (hL.refl _)

end

end XmlBinding.Schema
